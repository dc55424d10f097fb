import Gpcl.Lib.StableSort
import Gpcl.Lists.Splice

/-! # sort

The elements from `i` on are gone through with `j`, and each one that is smaller than that of `i` is
spliced in front of it and becomes `i`. What lies between `i` and `j` is never smaller than `i`. -/
namespace Gpcl.Lists
open Lib.Rings Lib.StableSort

variable {J T A : Type} [DecidableEq J] [DecidableEq A]

/-- `splice` of one element. -/
def spliceOne (fuel : Nat) (l : J) (pos : Iter J) (other : J) (it : Iter J) (m : Mem J T A) :
    Option (Mem J T A) :=
  splice fuel l pos other it (m.links.next it) m

/-- The inner loop of `sort`, with the iterators `i` and `j`. -/
def sortInner (lt : T → T → Bool) :
    Nat → J → Iter J → Iter J → Mem J T A → Option (Mem J T A × Iter J)
  | 0, _, _, _, _ => none
  | fuel + 1, l, i, j, m =>
    if j = .head l then some (m, i)
    else (deref j m).bind fun vj => (deref i m).bind fun vi =>
      if lt vj vi then
        let tmp := j
        let j := m.links.next j
        (spliceOne (fuel + 1) l i l tmp m).bind fun m => sortInner lt fuel l tmp j m
      else sortInner lt fuel l i (m.links.next j) m

/-- The outer loop, with the fuel of the inner ones. -/
def sortOuter (lt : T → T → Bool) (inner : Nat) : Nat → J → Iter J → Mem J T A → Option (Mem J T A)
  | 0, _, _, _ => none
  | fuel + 1, l, i, m =>
    if i = .head l then some m
    else (sortInner lt inner l i (m.links.next i) m).bind fun (m, i) =>
      sortOuter lt inner fuel l (m.links.next i) m

def sort (lt : T → T → Bool) (fuel : Nat) (l : J) (m : Mem J T A) : Option (Mem J T A) :=
  sortOuter lt fuel fuel l (begin l m) m

/-- The nodes of a list with their values, compared by these. -/
def byValue (lt : T → T → Bool) (a b : Nat × T) : Bool := lt a.2 b.2

variable {m : Mem J T A} {nodes : J → List Nat} {seq : J → List T} {l : J} {n : Nat}
    {us ws xs : List Nat} {ys vs qs : List T} {v : T}
  {lt : T → T → Bool} {ds ms ks : List (Nat × T)} {p : Nat × T} {fuel : Nat}

/-- An element goes to the front of some that are before it. -/
theorem Rep.spliceOne (hr : Rep m nodes seq) (hn : nodes l = xs ++ (us ++ n :: ws))
    (hs : seq l = ys ++ (vs ++ v :: qs)) (hlen : xs.length = ys.length)
    (hlen' : us.length = vs.length) (hus : us ≠ []) (hfuel : 1 < fuel) :
    ∃ L, spliceOne fuel l (firstOf l (us ++ n :: ws)) l (.node n) m = some { m with links := L } ∧
      Rep { m with links := L } (Function.update nodes l (xs ++ n :: (us ++ ws)))
        (Function.update seq l (ys ++ v :: (vs ++ qs))) := by
  have hcut : nodes l = (xs ++ us) ++ ([n] ++ ws) := by simp [hn]
  have hnext : m.links.next (.node n) = firstOf l ws := (hr.family.neighbours hcut).2
  have hpos : firstOf l (us ++ n :: ws) = firstOf l (us ++ ws) := by
    obtain ⟨u, us, rfl⟩ := List.exists_cons_of_ne_nil hus
    rfl
  have hsplice :=
    splice_eq hr.family rfl hcut (show [n].length < fuel from hfuel) (firstOf l (us ++ n :: ws))
  simp only [if_true] at hsplice
  have hfamily := relink_family hr.family (show nodes l = (xs ++ us) ++ (n :: [] ++ ws) from hcut)
    (show Function.update nodes l (xs ++ us ++ ws) l =
      xs ++ (us ++ ws) by rw [Function.update_self, List.append_assoc])
  rw [Function.update_idem] at hfamily
  refine ⟨relink (firstOf l (us ++ n :: ws)) (.node n) (firstOf l ws) m.links,
    by rw [Lists.spliceOne, hnext]; exact hsplice, by rw [hpos]; exact hfamily, fun g => ?_,
    hr.fresh, fun g => ?_⟩
  · obtain ⟨hxs, hrest⟩ := hr.parts hn hs hlen
    rw [List.map_append, List.map_append] at hrest
    obtain ⟨hus', hws⟩ := List.append_inj hrest (by rw [List.length_map, List.length_map, hlen'])
    rw [List.map_cons, List.map_cons, List.cons.injEq] at hws
    by_cases hg : g = l
    · rw [hg, Function.update_self, Function.update_self]
      simp only [List.map_append, List.map_cons]
      rw [hxs, hus', hws.1, hws.2]
    · rw [Function.update_of_ne hg, Function.update_of_ne hg, hr.values g]
  · show m.size g = _
    by_cases hg : g = l
    · rw [hg, Function.update_self, hr.size l, hs]
      simp only [List.length_append, List.length_cons]
      omega
    · rw [Function.update_of_ne hg, hr.size g]

/-- The list `l` holds the nodes and values of `ps`, and the others are as given. -/
def RepWith (m : Mem J T A) (nodes : J → List Nat) (seq : J → List T) (l : J)
    (ps : List (Nat × T)) : Prop :=
  Rep m (Function.update nodes l (ps.map Prod.fst)) (Function.update seq l (ps.map Prod.snd))

omit [DecidableEq A] in
theorem Rep.with_zip (hr : Rep m nodes seq) (l : J) :
    RepWith m nodes seq l ((nodes l).zip (seq l)) := by
  have hlen := hr.length l
  unfold RepWith
  rw [List.map_fst_zip hlen.le, List.map_snd_zip hlen.ge, Function.update_eq_self,
    Function.update_eq_self]
  exact hr

omit [DecidableEq J] [DecidableEq A] in
theorem update_map {α β : Type} [DecidableEq J] (s : J → List β) (l : J) (f : α → β)
    (ds ks : List α) :
    Function.update s l ((ds ++ ks).map f) l = ds.map f ++ ks.map f := by
  rw [Function.update_self, List.map_append]

omit [DecidableEq A] in
theorem RepWith.deref (hr : RepWith m nodes seq l (ds ++ p :: ks)) :
    deref (.node p.1) m = some p.2 := by
  have hp := hr.parts (update_map nodes l Prod.fst ds (p :: ks))
    (update_map seq l Prod.snd ds (p :: ks))
    (by rw [List.length_map, List.length_map])
  exact (List.cons.inj hp.2).1

omit [DecidableEq A] in
theorem RepWith.next (hr : RepWith m nodes seq l (ds ++ p :: ks)) :
    m.links.next (.node p.1) = firstOf l (ks.map Prod.fst) :=
  (hr.family.neighbours (update_map nodes l Prod.fst ds (p :: ks))).2

/-- The element behind some others goes to the front of them. -/
theorem RepWith.spliceOne {q : Nat × T} (hr : RepWith m nodes seq l (ds ++ p :: (ms ++ q :: ks)))
    (hfuel : 1 < fuel) :
    ∃ L, Lists.spliceOne fuel l (.node p.1) l (.node q.1) m = some { m with links := L } ∧
      RepWith { m with links := L } nodes seq l (ds ++ q :: (p :: ms ++ ks)) := by
  have hplace : ∀ {β : Type} (s : J → List β) (f : Nat × T → β),
      Function.update s l ((ds ++ p :: (ms ++ q :: ks)).map f) l =
        ds.map f ++ ((p :: ms).map f ++ f q :: ks.map f) := fun s f => by
    rw [update_map, List.map_cons, List.map_append, List.map_cons]
    rfl
  obtain ⟨L, heq, hr'⟩ :=
    Rep.spliceOne hr (hplace nodes Prod.fst) (hplace seq Prod.snd)
      (by rw [List.length_map, List.length_map])
    (by rw [List.length_map, List.length_map]) (by simp) hfuel
  refine ⟨L, heq, ?_⟩
  rw [Function.update_idem, Function.update_idem] at hr'
  unfold RepWith
  simp only [List.map_append, List.map_cons, List.cons_append] at hr' ⊢
  exact hr'

/-- The inner loop ends, with the smallest of the elements in front of the others. -/
theorem RepWith.sortInner (hlt : IsStrictWeakOrder (Nat × T) fun a b => byValue lt a b = true)
    (hr : RepWith m nodes seq l (ds ++ p :: (ms ++ ks))) (hms : ∀ q ∈ ms, byValue lt q p = false)
    (hfuel : ks.length < fuel) :
    ∃ L p' ms', sortInner lt fuel l (.node p.1) (firstOf l (ks.map Prod.fst)) m =
      some ({ m with links := L }, .node p'.1) ∧
      RepWith { m with links := L } nodes seq l (ds ++ p' :: ms') ∧
        Rearranged (byValue lt) (p :: (ms ++ ks)) (p' :: ms') ∧
      ∀ q ∈ ms', byValue lt q p' = false := by
  induction ks generalizing m p ms fuel with
  | nil =>
    obtain ⟨fuel, rfl⟩ := Nat.exists_eq_add_one_of_ne_zero (Nat.ne_of_gt hfuel)
    rw [List.append_nil] at hr ⊢
    exact ⟨m.links, p, ms, if_pos rfl, hr, .refl _, hms⟩
  | cons k ks ih =>
    obtain ⟨fuel, rfl⟩ := Nat.exists_eq_add_one_of_ne_zero (Nat.ne_of_gt (Nat.zero_lt_of_lt hfuel))
    rw [List.length_cons] at hfuel
    have hr₁ : RepWith m nodes seq l ((ds ++ p :: ms) ++ k :: ks) := by simpa using hr
    have hne : (Node.node k.1 : Iter J) ≠ .head l := nofun
    show ∃ L p' ms', Lists.sortInner lt (fuel + 1) l (.node p.1) (.node k.1) m = _ ∧ _
    rw [Lists.sortInner, if_neg hne, hr₁.deref, Option.bind_some, hr.deref, Option.bind_some,
      hr₁.next]
    by_cases hkp : lt k.2 p.2 = true
    · obtain ⟨L₁, heq, hr₂⟩ := hr.spliceOne (show 1 < fuel + 1 by omega)
      obtain ⟨hmove, hms'⟩ := Rearranged.step hlt hms (show byValue lt k p = true from hkp) ks
      obtain ⟨L, p', ms', hloop, hr', hre, hmin⟩ := ih hr₂ hms' (Nat.lt_of_succ_lt_succ hfuel)
      rw [if_pos hkp]
      dsimp only
      rw [heq, Option.bind_some]
      exact ⟨L, p', ms', hloop, hr', hmove.trans hre, hmin⟩
    · have hms' : ∀ q ∈ ms ++ [k], byValue lt q p = false := fun q hq => by
        rcases List.mem_append.mp hq with hq | hq
        · exact hms q hq
        · rw [List.mem_singleton.mp hq]
          exact Bool.eq_false_iff.mpr hkp
      have hassoc : ms ++ k :: ks = (ms ++ [k]) ++ ks := by
        rw [List.append_assoc, List.singleton_append]
      rw [hassoc] at hr ⊢
      rw [if_neg hkp]
      exact ih hr hms' (Nat.lt_of_succ_lt_succ hfuel)

/-- The outer loop ends, with the elements sorted from its iterator on. -/
theorem RepWith.sortOuter (hlt : IsStrictWeakOrder (Nat × T) fun a b => byValue lt a b = true)
    {inner : Nat} (hr : RepWith m nodes seq l (ds ++ ms)) (hinner : ms.length ≤ inner)
    (hfuel : ms.length < fuel) :
    ∃ L ms', sortOuter lt inner fuel l (firstOf l (ms.map Prod.fst)) m =
      some { m with links := L } ∧
      RepWith { m with links := L } nodes seq l (ds ++ ms') ∧ StablySorted (byValue lt) ms ms' := by
  induction fuel generalizing m ds ms with
  | zero => exact absurd hfuel (Nat.not_lt_zero _)
  | succ fuel ih =>
    cases ms with
    | nil => exact ⟨m.links, [], if_pos rfl, hr, .nil⟩
    | cons p ps =>
      rw [List.length_cons] at hinner hfuel
      obtain ⟨L₁, p', ms', hloop, hr₁, hre, hmin⟩ :=
        RepWith.sortInner hlt (show RepWith m nodes seq l (ds ++ p :: ([] ++ ps))
          from hr) nofun hinner
      have hlen : ms'.length = ps.length := Nat.succ.inj hre.perm.length_eq
      have hr₂ : RepWith { m with links := L₁ } nodes seq l ((ds ++ [p']) ++ ms') := by
        simpa using hr₁
      obtain ⟨L, qs, hrest, hr', hsorted⟩ := ih hr₂ (by omega) (by omega)
      refine ⟨L, p' :: qs, ?_, by simpa using hr', .cons hre hmin hsorted⟩
      have hne : (Node.node p.1 : Iter J) ≠ .head l := nofun
      show Lists.sortOuter lt inner (fuel + 1) l (.node p.1) m = _
      rw [Lists.sortOuter, if_neg hne, hr.next, hloop, Option.bind_some]
      dsimp only
      rw [hr₁.next]
      exact hrest

/-- `sort` ends for every strict weak ordering, and only links are written: the nodes of the list,
with their values, are sorted stably, and the other lists are as before. -/
theorem sort_sorts_stably (hlt : IsStrictWeakOrder T fun a b => lt a b = true)
    (hr : Rep m nodes seq) (l : J) (hfuel : (seq l).length < fuel) :
    ∃ L items, sort lt fuel l m = some { m with links := L } ∧
    StablySorted (byValue lt) ((nodes l).zip (seq l)) items ∧
      Rep { m with links := L } (Function.update nodes l (items.map Prod.fst))
        (Function.update seq l (items.map Prod.snd)) := by
  have hitems : IsStrictWeakOrder (Nat × T) fun a b => byValue lt a b = true :=
    { irrefl := fun a => hlt.irrefl a.2
      trans := fun a b c => hlt.trans a.2 b.2 c.2
      incomp_trans := fun a b c => hlt.incomp_trans a.2 b.2 c.2 }
  have hlen := hr.length l
  have hzip : ((nodes l).zip (seq l)).length = (seq l).length := by
    rw [List.length_zip, hlen, Nat.min_self]
  have hwith : RepWith m nodes seq l ([] ++ (nodes l).zip (seq l)) := hr.with_zip l
  obtain ⟨L, items, heq, hr', hsorted⟩ :=
    hwith.sortOuter hitems (show _ ≤ fuel by omega) (show _ < fuel by omega)
  rw [List.map_fst_zip hlen.le, ← hr.begin] at heq
  exact ⟨L, items, heq, hsorted, hr'⟩

/-- A list of 2 and 1. -/
def unsorted : Mem Unit Nat Unit :=
  (emplace () (.head ()) 1 (emplace () (.head ()) 2 (.empty ())).1).1

theorem rep_unsorted : ∃ nodes seq, Rep unsorted nodes seq ∧ seq () = [2, 1] := by
  have hempty : Rep (.empty () : Mem Unit Nat Unit) (fun _ => []) fun _ => [] := Rep.empty ()
  have hr := hempty.emplace (l := ()) (show _ = [] ++ [] from rfl)
    (show _ = [] ++ [] from rfl) rfl 2
  exact ⟨_, _, hr.emplace (show _ = [0] ++ [] from rfl) (show _ = [2] ++ [] from rfl) rfl 1, rfl⟩

theorem sort_sorts_unsorted : ∃ nodes seq L items, Rep unsorted nodes seq ∧
    sort (fun a b => decide (a < b)) 3 () unsorted = some { unsorted with links := L } ∧
    StablySorted (byValue fun a b => decide (a < b)) ((nodes ()).zip (seq ())) items := by
  have hlt : IsStrictWeakOrder Nat fun a b => decide (a < b) = true :=
    { irrefl := fun a h => Nat.lt_irrefl a (of_decide_eq_true h)
      trans := fun a b c hab hbc =>
        decide_eq_true (Nat.lt_trans (of_decide_eq_true hab) (of_decide_eq_true hbc))
      incomp_trans := fun a b c hab hbc => by simp only [decide_eq_true_eq] at *; omega }
  obtain ⟨nodes, seq, hr, hs⟩ := rep_unsorted
  obtain ⟨L, items, heq, hsorted, _⟩ :=
    sort_sorts_stably hlt hr () (show _ < 3 by rw [hs]; exact Nat.lt_succ_self 2)
  exact ⟨nodes, seq, L, items, hr, heq, hsorted⟩

end Gpcl.Lists
