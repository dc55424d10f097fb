import Gpcl.Json.CowSpec

/-! # Places in values and in contents

A place is a path of indices and keys. Data that is changed at a place of containers held directly
has its content changed at the same place, and nowhere else. -/
namespace Gpcl.Cow

variable {R I : Type}

/-! ## Places in contents -/

def childOf : Place → Json R → Option (Json R)
  | .index i, .array xs => xs[i]?
  | .key k, .object fields => findKey k fields
  | _, _ => none

def onChildOf (f : Json R → Json R) : Place → Json R → Json R
  | .index i, .array xs => .array (xs.modify i f)
  | .key k, .object fields => .object (modifyKey k f fields)
  | _, j => j

def findIn : List Place → Json R → Option (Json R)
  | [], j => some j
  | p :: path, j => (childOf p j).bind (findIn path)

def modifyIn (f : Json R → Json R) : List Place → Json R → Json R
  | [], j => f j
  | p :: path, j => onChildOf (modifyIn f path) p j

section keys
variable {V W : Type} {k k' : Str} {v : V} {fields : List (Str × V)}

theorem findKey_map (g : V → W) :
    findKey k (fields.map (Prod.map id g)) = (findKey k fields).map g := by
  induction fields with
  | nil => rfl
  | cons f fields ih =>
    obtain ⟨k', v⟩ := f
    rw [List.map_cons, Prod.map, findKey, findKey, ih]
    dsimp only [id]
    split <;> rfl

theorem insertKey_map (g : V → W) :
    insertKey k (g v) (fields.map (Prod.map id g)) =
      (insertKey k v fields).map (Prod.map id g) := by
  induction fields with
  | nil => rfl
  | cons f fields ih =>
    obtain ⟨k', v'⟩ := f
    rw [List.map_cons, Prod.map, insertKey, insertKey]
    dsimp only [id]
    split
    · rw [ih]; rfl
    · split <;> rfl

theorem eraseKey_map (g : V → W) :
    eraseKey k (fields.map (Prod.map id g)) = (eraseKey k fields).map (Prod.map id g) := by
  induction fields with
  | nil => rfl
  | cons f fields ih =>
    obtain ⟨k', v'⟩ := f
    rw [List.map_cons, Prod.map, eraseKey, eraseKey]
    dsimp only [id]
    split
    · rfl
    · rw [ih]; rfl

theorem mem_insertKey {e : Str × V} (he : e ∈ insertKey k v fields) : e = (k, v) ∨ e ∈ fields := by
  induction fields with
  | nil => exact .inl (List.mem_singleton.mp he)
  | cons e' fields ih =>
    obtain ⟨k', v'⟩ := e'
    rw [insertKey] at he
    split at he
    · rcases List.mem_cons.mp he with rfl | he
      · exact .inr List.mem_cons_self
      · exact (ih he).imp_right (List.mem_cons_of_mem _)
    · split at he
      · exact List.mem_cons.mp he
      · exact .inr he

theorem eraseKey_subset : eraseKey k fields ⊆ fields := by
  induction fields with
  | nil => exact List.Subset.refl _
  | cons e fields ih =>
    obtain ⟨k', v'⟩ := e
    rw [eraseKey]
    split
    · exact List.subset_cons_self _ _
    · exact List.cons_subset_cons _ ih

theorem modifyKey_map (g : V → W) {f : V → V} {f' : W → W}
    (h : ∀ v, findKey k fields = some v → g (f v) = f' (g v)) :
    (modifyKey k f fields).map (Prod.map id g) = modifyKey k f' (fields.map (Prod.map id g)) := by
  induction fields with
  | nil => rfl
  | cons e fields ih =>
    obtain ⟨k', v⟩ := e
    rw [List.map_cons, Prod.map, modifyKey, modifyKey]
    dsimp only [id]
    rw [findKey] at h
    split
    · next hk =>
      rw [if_pos hk] at h
      rw [List.map_cons, Prod.map, h v rfl]
      rfl
    · next hk =>
      rw [if_neg hk] at h
      rw [List.map_cons, ih h]
      rfl

theorem findKey_modifyKey (f : V → V) :
    findKey k' (modifyKey k f fields) = if k' = k then (findKey k fields).map f
    else findKey k' fields := by
  induction fields with
  | nil => split <;> rfl
  | cons e fields ih =>
    obtain ⟨k₁, v⟩ := e
    rw [modifyKey]
    by_cases h₁ : k₁ = k
    · rw [if_pos h₁, findKey, findKey, findKey, if_pos h₁]
      by_cases hk : k' = k
      · rw [if_pos hk, if_pos (h₁.trans hk.symm)]; rfl
      · have hne : k₁ ≠ k' := fun he => hk (he.symm.trans h₁)
        rw [if_neg hk, if_neg hne, if_neg hne]
    · rw [if_neg h₁, findKey, findKey, findKey, ih, if_neg h₁]
      by_cases hk : k' = k
      · rw [if_pos hk, if_pos hk, if_neg fun he => h₁ (he.trans hk)]
      · rw [if_neg hk, if_neg hk]

theorem modifyKey_fixed {f : V → V} (h : findKey k fields = some v) (hf : f v = v) :
    modifyKey k f fields = fields := by
  induction fields with
  | nil => rfl
  | cons e fields ih =>
    obtain ⟨k', v'⟩ := e
    rw [findKey] at h
    rw [modifyKey]
    split at h
    · next hk =>
      rw [if_pos hk, Option.some.inj h, hf]
    · next hk => rw [if_neg hk, ih h]

theorem mem_modifyKey {f : V → V} {e : Str × V} (he : e ∈ modifyKey k f fields) :
    e ∈ fields ∨ ∃ v, findKey k fields = some v ∧ e.2 = f v := by
  induction fields with
  | nil => exact .inl he
  | cons e' fields ih =>
    obtain ⟨k', v⟩ := e'
    rw [modifyKey] at he
    rw [findKey]
    split at he
    · next hk =>
      rcases List.mem_cons.mp he with rfl | he
      · exact .inr ⟨v, if_pos hk, rfl⟩
      · exact .inl (List.mem_cons_of_mem _ he)
    · next hk =>
      rw [if_neg hk]
      rcases List.mem_cons.mp he with rfl | he
      · exact .inl List.mem_cons_self
      · rcases ih he with he | he
        · exact .inl (List.mem_cons_of_mem _ he)
        · exact .inr he

theorem findKey_mem (h : findKey k fields = some v) : (k, v) ∈ fields := by
  induction fields with
  | nil => cases h
  | cons e fields ih =>
    obtain ⟨k', v'⟩ := e
    rw [findKey] at h
    split at h
    · next hk =>
      obtain rfl := Option.some.inj h
      exact hk ▸ List.mem_cons_self
    · exact List.mem_cons_of_mem _ (ih h)

end keys

section places
variable {f : Json R → Json R} {p q : Place} {j : Json R} {path qs : List Place}

theorem childOf_onChildOf : childOf p (onChildOf f p j) = (childOf p j).map f := by
  cases p with
  | index i =>
    cases j with
    | array xs => exact List.getElem?_modify_eq f i xs
    | _ => rfl
  | key k =>
    cases j with
    | object fields => exact (findKey_modifyKey f).trans (if_pos rfl)
    | _ => rfl

theorem childOf_onChildOf_of_ne (h : q ≠ p) : childOf q (onChildOf f p j) = childOf q j := by
  cases p with
  | index i =>
    cases j with
    | array xs =>
      cases q with
      | index k => exact List.getElem?_modify_ne f xs fun he => h (congrArg Place.index he.symm)
      | key k => rfl
    | _ => rfl
  | key k =>
    cases j with
    | object fields =>
      cases q with
      | index i => rfl
      | key k' => exact (findKey_modifyKey f).trans (if_neg fun he => h (congrArg Place.key he))
    | _ => rfl

/-- A change at one place is none at the places that are neither in it nor around it. -/
theorem findIn_modifyIn (h : ¬ path <+: qs) (h' : ¬ qs <+: path) :
    findIn qs (modifyIn f path j) = findIn qs j := by
  induction path generalizing qs j with
  | nil => exact absurd (List.nil_prefix) h
  | cons p path ih =>
    cases qs with
    | nil => exact absurd (List.nil_prefix) h'
    | cons q qs =>
      rw [modifyIn, findIn, findIn]
      by_cases hqp : q = p
      · subst hqp
        rw [childOf_onChildOf, Option.bind_map]
        refine Option.bind_congr fun x _ => ih (fun hp => h ?_) fun hp => h' ?_
        · exact (List.prefix_cons_inj q).mpr hp
        · exact (List.prefix_cons_inj q).mpr hp
      · rw [childOf_onChildOf_of_ne hqp]

theorem onChildOf_fixed {x : Json R} (h : childOf p j = some x) (hf : f x = x) :
    onChildOf f p j = j := by
  cases p with
  | index i =>
    cases j with
    | array xs =>
      have hi : xs[i]? = some x := h
      refine congrArg Json.array (List.ext_getElem? fun k => ?_)
      by_cases hk : i = k
      · rw [← hk, List.getElem?_modify_eq, hi]
        exact congrArg some hf
      · exact List.getElem?_modify_ne f xs hk
    | _ => rfl
  | key k =>
    cases j with
    | object fields => exact congrArg Json.object (modifyKey_fixed h hf)
    | _ => rfl

/-- A change that is none. -/
theorem modifyIn_fixed {j₀ : Json R} (h : findIn path j = some j₀) (hf : f j₀ = j₀) :
    modifyIn f path j = j := by
  induction path generalizing j with
  | nil =>
    obtain rfl := Option.some.inj h
    exact hf
  | cons p path ih =>
    obtain ⟨x, hx, h⟩ := Option.bind_eq_some_iff.mp h
    exact onChildOf_fixed hx (ih h)

end places

section data
variable {H : Heap R} {d d₀ : Data R} {path : List Place} {f : Data R → Data R}
    {g : Json R → Json R}

theorem map_modify {α β : Type} (c : α → β) {f : α → α} {g : β → β} : ∀ {xs : List α} {i : Nat},
    (∀ x, xs[i]? = some x → c (f x) = g (c x)) → (xs.modify i f).map c = (xs.map c).modify i g
  | [], _, _ => by simp
  | x :: xs, 0, h => by simpa using h x rfl
  | x :: xs, i + 1, h => by
    have ih : (xs.modify i f).map c = (xs.map c).modify i g := map_modify c (by simpa using h)
    simpa using ih

theorem Ok.child {p : Place} (hd : Ok H d) (h : d.child p = some d₀) :
    Ok H d₀ ∧ childOf p (content H d) = some (content H d₀) := by
  cases p with
  | index i =>
    cases hd with
    | array hok =>
      rw [content_array]
      refine ⟨hok d₀ (List.mem_of_getElem? h), ?_⟩
      show (List.map (content H) _)[i]? = _
      rw [List.getElem?_map]
      exact congrArg (Option.map (content H)) h
    | _ => cases h
  | key k =>
    cases hd with
    | object hok =>
      rw [content_object]
      refine ⟨hok _ (findKey_mem h), ?_⟩
      exact (findKey_map (content H)).trans (congrArg (Option.map (content H)) h)
    | _ => cases h

/-- A change of a part of a container that is held directly. -/
theorem Ok.onChild {p : Place} (hd : Ok H d) (hx : d.child p = some d₀) (hok : Ok H (f d₀))
    (hc : content H (f d₀) = g (content H d₀)) :
    Ok H (d.onChild f p) ∧ content H (d.onChild f p) = onChildOf g p (content H d) := by
  cases p with
  | index i =>
    cases hd with
    | @array xs hxs =>
      have hi : xs[i]? = some d₀ := hx
      refine ⟨.array fun x hm => ?_, ?_⟩
      · obtain ⟨k, hk⟩ := List.mem_iff_getElem?.mp hm
        rw [List.getElem?_modify] at hk
        obtain ⟨y, hy, rfl⟩ := Option.map_eq_some_iff.mp hk
        by_cases hik : i = k
        · obtain rfl : y = d₀ := Option.some.inj (hy.symm.trans (hik ▸ hi))
          rw [if_pos hik]
          exact hok
        · rw [if_neg hik]
          exact hxs y (List.mem_of_getElem? hy)
      · show content H (.array (xs.modify i f)) = onChildOf g (.index i) (content H (.array xs))
        have hmap : ∀ x, xs[i]? = some x → content H (f x) = g (content H x) := fun x hm => by
          rw [← Option.some.inj (hi.symm.trans hm)]
          exact hc
        rw [content_array, content_array, map_modify (content H) hmap]
        rfl
    | _ => cases hx
  | key k =>
    cases hd with
    | @object fields hfs =>
      have hk : findKey k fields = some d₀ := hx
      refine ⟨.object fun e he => ?_, ?_⟩
      · rcases mem_modifyKey he with he | ⟨v, hv, he⟩
        · exact hfs e he
        · rw [he, ← Option.some.inj (hk.symm.trans hv)]
          exact hok
      · show content H (.object (modifyKey k f fields)) =
          onChildOf g (.key k) (content H (.object fields))
        have hmap : ∀ x, findKey k fields = some x → content H (f x) = g (content H x) :=
            fun x hm => by
          rw [← Option.some.inj (hk.symm.trans hm)]
          exact hc
        rw [content_object, content_object, modifyKey_map (content H) hmap]
        rfl
    | _ => cases hx

theorem Ok.find (hd : Ok H d) (h : d.find path = some d₀) :
    Ok H d₀ ∧ findIn path (content H d) = some (content H d₀) := by
  induction path generalizing d with
  | nil =>
    obtain rfl := Option.some.inj h
    exact ⟨hd, rfl⟩
  | cons p path ih =>
    obtain ⟨x, hx, h⟩ := Option.bind_eq_some_iff.mp h
    obtain ⟨hok, hc⟩ := hd.child hx
    obtain ⟨hok₀, hc₀⟩ := ih hok h
    exact ⟨hok₀, by rw [findIn, hc, Option.bind_some, hc₀]⟩

theorem Ok.modify (hd : Ok H d) (h : d.find path = some d₀) (hok : Ok H (f d₀))
    (hc : content H (f d₀) = g (content H d₀)) :
    Ok H (d.modify f path) ∧ content H (d.modify f path) = modifyIn g path (content H d) := by
  induction path generalizing d with
  | nil =>
    obtain rfl := Option.some.inj h
    exact ⟨hok, hc⟩
  | cons p path ih =>
    obtain ⟨x, hx, h⟩ := Option.bind_eq_some_iff.mp h
    obtain ⟨hokx, hcx⟩ := ih (hd.child hx).1 h
    exact hd.onChild hx hokx hcx

theorem child_onChild {p : Place} (hx : d.child p = some d₀) :
    (d.onChild f p).child p = some (f d₀) := by
  cases p with
  | index i =>
    cases d with
    | array xs => exact (List.getElem?_modify_eq f i xs).trans (congrArg (Option.map f) hx)
    | _ => cases hx
  | key k =>
    cases d with
    | object fields =>
      exact ((findKey_modifyKey f).trans (if_pos rfl)).trans (congrArg (Option.map f) hx)
    | _ => cases hx

theorem find_modify (h : d.find path = some d₀) : (d.modify f path).find path = some (f d₀) := by
  induction path generalizing d with
  | nil =>
    obtain rfl := Option.some.inj h
    rfl
  | cons p path ih =>
    obtain ⟨x, hx, h⟩ := Option.bind_eq_some_iff.mp h
    rw [Data.modify, Data.find, child_onChild hx, Option.bind_some, ih h]

end data

end Gpcl.Cow
