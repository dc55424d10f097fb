import Gpcl.Lists.Splice

/-! # swap

`list_node::swap` gives two head nodes each other's neighbours. Where a list is empty its head is
its own neighbour, and the writes overlap. -/
namespace Gpcl.Lists
open Lib.Rings

variable {J T A : Type} [DecidableEq J] [DecidableEq A]

/-- `list_node::swap`. -/
def swapNode (a other : Iter J) (L : Links (Node J Nat)) : Links (Node J Nat) :=
  if a = other then L
  else
    let prev := L.prev a
    let next := L.next a
    let otherPrev := L.prev other
    let otherNext := L.next other
    let L := (L.setPrev a otherPrev).setNext a otherNext
    let L := (L.setNext prev other).setPrev next other
    let L := (L.setNext otherPrev a).setPrev otherNext a
    (L.setPrev other prev).setNext other next

/-- `swap`, with its assertion; `propagate` is `propagate_on_container_swap`. -/
def swap (propagate : Bool) (l other : J) (m : Mem J T A) : Option (Mem J T A) :=
  let m' := { m with
    links := swapNode (.head l) (.head other) m.links
    size := Function.update (Function.update m.size l (m.size other)) other (m.size l) }
  if propagate then some { m' with
    alloc := Function.update (Function.update m.alloc l (m.alloc other)) other (m.alloc l) }
  else if m.alloc l = m.alloc other then some m' else none

/-- What `swap` is for. -/
def swapped {α : Type} (l other : J) (s : J → α) : J → α :=
  Function.update (Function.update s l (s other)) other (s l)

variable {m : Mem J T A} {L : Links (Node J Nat)} {nodes : J → List Nat} {seq : J → List T}
    {l other : J} {x z : Nat} {xs zs : List Nat}

/-- The writes as two transfers, of the second ring behind the first and of the first to where the
second was. -/
theorem swapNode_eq {a o p q r t : Iter J} (hao : a ≠ o) (ha : L.Adj p a ∧ L.Adj a q)
    (ho : L.Adj r o ∧ L.Adj o t) (hpo : p ≠ o) (hpr : p ≠ r) (hra : r ≠ a) (hqt : q ≠ t) :
    swapNode a o L = (((((L.join o o).join p t).join r a).join a t).join o q).join p o := by
  unfold swapNode Links.join Links.setNext Links.setPrev
  rw [if_neg hao, ha.1.2, ha.2.1, ho.1.2, ho.2.1]
  refine congrArg₂ Links.mk (funext fun b => ?_) (funext fun b => ?_)
  · simp only [Function.update_apply]
    split_ifs <;> simp_all
  · simp only [Function.update_apply]
    split_ifs <;> simp_all

omit [DecidableEq A]

/-- Two lists with elements. -/
theorem swapNode_family (hf : Family L nodes) (hl : l ≠ other) (hn : nodes l = x :: xs)
    (hn' : nodes other = z :: zs) :
    Family (swapNode (.head l) (.head other) L) (swapped l other nodes) := by
  have hadj : ∀ {g : J} {n : Nat} {ns : List Nat}, nodes g = n :: ns →
      L.Adj (lastOf g (n :: ns)) (.head g) ∧ L.Adj (.head g) (.node n) := fun {g n ns} hg =>
    ⟨hf.adj (show nodes g = n :: ns ++ [] by rw [hg, List.append_nil]),
      hf.adj (show nodes g = [] ++ n :: ns from hg)⟩
  obtain ⟨p, hp, hlast⟩ := exists_last l x xs
  obtain ⟨r, hrm, hlast'⟩ := exists_last other z zs
  have ha := hadj hn
  have ho := hadj hn'
  rw [hlast] at ha
  rw [hlast'] at ho
  have hpr : p ≠ r := fun he => hl (hf.unique l other p (hn ▸ hp) (by rw [hn', he]; exact hrm))
  have hxz : x ≠ z :=
    fun he => hl (hf.unique l other x (hn ▸ List.mem_cons_self)
      (by rw [hn', he]; exact List.mem_cons_self))
  have heads : Node.head l ≠ (.head other : Iter J) := fun he => hl (Node.head.inj he)
  have hnode : ∀ {n k : Nat}, n ≠ k → Node.node n ≠ (.node k : Iter J) :=
    fun hnk he => hnk (Node.node.inj he)
  have heq := swapNode_eq heads ha ho nofun (hnode hpr) nofun (hnode hxz)
  have hfirst :=
    hf.splice (show nodes other = [] ++ (z :: zs ++ []) by rw [hn', List.append_nil]; rfl)
    (show Function.update nodes other ([] ++ []) l =
      x :: xs ++ [] by rw [Function.update_of_ne hl, hn, List.append_nil])
  have hsecond := hfirst.splice
    (show Function.update (Function.update nodes other ([] ++ [])) l
        (x :: xs ++ (z :: zs ++ [])) l = [] ++ (x :: xs ++ z :: zs) by
      rw [Function.update_self, List.append_nil]; rfl)
    (show Function.update (Function.update (Function.update nodes other ([] ++ [])) l
      (x :: xs ++ (z :: zs ++ []))) l
        ([] ++ z :: zs) other = [] ++ [] by
      rw [Function.update_of_ne hl.symm, Function.update_of_ne hl.symm, Function.update_self])
  have hseq : swapped l other nodes =
      Function.update (Function.update
        (Function.update (Function.update nodes other ([] ++ [])) l (x :: xs ++ (z :: zs ++ []))) l
        ([] ++ z :: zs)) other ([] ++ (x :: xs ++ [])) := by
    rw [Function.update_idem, Function.update_comm hl.symm, Function.update_idem, swapped, hn, hn',
      List.append_nil, List.nil_append, List.nil_append]
  rw [← lastOf_cons other, ← lastOf_cons l, hlast, hlast', ← hseq] at hsecond
  rw [heq]
  exact hsecond

theorem swapped_self {α : Type} (l : J) (s : J → α) : swapped l l s = s := by
  rw [swapped, Function.update_idem, Function.update_eq_self]

theorem map_swapped {α β : Type} (f : α → β) (l other : J) (s : J → α) (g : J) :
    f (swapped l other s g) = swapped l other (fun g => f (s g)) g := by
  unfold swapped
  simp only [Function.update_apply]
  split_ifs <;> rfl

/-- With an empty list the head of the first one leads to that of the second. -/
theorem swapNode_next (hf : Family L nodes) (hl : l ≠ other) (h : nodes l = [] ∨ nodes other = []) :
    (swapNode (.head l) (.head other) L).next (.head l) = .head other := by
  have heads : Node.head l ≠ (.head other : Iter J) := fun he => hl (Node.head.inj he)
  have hlast : L.prev (.head other) ≠ .head l := fun he => by
    have hm := lastOf_mem other (nodes other) []
    rw [← (hf.adj (List.append_nil (nodes other)).symm).2, List.append_nil] at hm
    change L.prev (.head other) ∈ _ at hm
    rw [he, head_mem_cycle] at hm
    exact hl hm
  unfold swapNode Links.setNext Links.setPrev
  rw [if_neg heads]
  dsimp only
  rw [Function.update_of_ne heads, Function.update_of_ne hlast.symm]
  by_cases hprev : L.prev (.head l) = .head l
  · rw [hprev, Function.update_self]
  · have hnil : nodes other = [] :=
      h.resolve_left fun hnil => hprev (hf.adj (show nodes l = [] ++ [] from hnil)).2
    have hnext : L.next (.head other) = .head other :=
      (hf.adj (show nodes other = [] ++ [] from hnil)).1
    rw [Function.update_of_ne (Ne.symm hprev), Function.update_self, hnext]

variable [DecidableEq A] {propagate : Bool}

theorem swap_eq (propagate : Bool) (halloc : m.alloc l = m.alloc other) :
    ∃ m', swap propagate l other m = some m' ∧
    m'.links = swapNode (.head l) (.head other) m.links ∧ m'.value = m.value ∧ m'.used = m.used ∧
    m'.size = swapped l other m.size := by
  unfold swap
  cases propagate
  · exact ⟨_, if_pos halloc, rfl, rfl, rfl, rfl⟩
  · exact ⟨_, rfl, rfl, rfl, rfl, rfl⟩

theorem Rep.swap (hr : Rep m nodes seq) (halloc : m.alloc l = m.alloc other)
    (h : (seq l ≠ [] ∧ seq other ≠ []) ∨ l = other) :
    Gives (swap propagate l other m) (swapped l other seq) := by
  obtain ⟨m', heq, hlinks, hvalue, hused, hsize⟩ := swap_eq propagate halloc
  have hfamily : Family m'.links (swapped l other nodes) := by
    rw [hlinks]
    by_cases hl : l = other
    · rw [hl, swapped_self, swapNode, if_pos rfl]
      exact hr.family
    · have hcons : ∀ g, seq g ≠ [] → ∃ x xs, nodes g = x :: xs := fun g hg =>
        List.exists_cons_of_ne_nil fun hn =>
          hg (List.length_eq_zero_iff.mp (by rw [← hr.length g, hn]; rfl))
      obtain ⟨hs, hs'⟩ := h.resolve_right hl
      obtain ⟨x, xs, hn⟩ := hcons l hs
      obtain ⟨z, zs, hn'⟩ := hcons other hs'
      exact swapNode_family hr.family hl hn hn'
  refine ⟨m', heq, swapped l other nodes, hfamily, fun g => ?_, fun n hn => ?_, fun g => ?_⟩
  · rw [hvalue, map_swapped (List.map m.value), map_swapped (List.map some)]
    exact congrArg (fun s => swapped l other s g) (funext hr.values)
  · rw [hvalue]
    exact hr.fresh n (hused ▸ hn)
  · rw [hsize, map_swapped List.length]
    exact congrArg (fun s => swapped l other s g) (funext hr.size)

/-- A list of the result would go on with the head of another one. -/
theorem Rep.not_swap (hr : Rep m nodes seq) (halloc : m.alloc l = m.alloc other) (hl : l ≠ other)
    (h : seq l = [] ∨ seq other = [])
    (seq' : J → List T) : ¬ Gives (Lists.swap propagate l other m) seq' := by
  intro ⟨m₁, heq₁, nodes', hr'⟩
  obtain ⟨m', heq, hlinks, _⟩ := swap_eq propagate halloc
  obtain rfl : m' = m₁ := Option.some.inj (heq.symm.trans heq₁)
  have hempty : ∀ {g}, seq g = [] → nodes g = [] := fun {g} hg =>
    List.length_eq_zero_iff.mp (by rw [hr.length g, hg]; rfl)
  have hhead := swapNode_next hr.family hl (h.imp hempty hempty)
  have hnext : m'.links.next (.head l) = firstOf l (nodes' l) := hr'.begin l
  rw [hlinks, hhead] at hnext
  have hmem := firstOf_mem l [] (nodes' l)
  rw [← hnext, head_mem_cycle] at hmem
  exact hl hmem.symm

/-- `swap` exchanges two lists if and only if none of them is empty, or they are the same. -/
theorem swap_exchanges_iff (propagate : Bool) (hr : Rep m nodes seq)
    (halloc : m.alloc l = m.alloc other) :
    Gives (Lists.swap propagate l other m) (swapped l other seq) ↔ (seq l ≠ [] ∧ seq other ≠ []) ∨
    l = other := by
  refine ⟨fun hg => ?_, hr.swap halloc⟩
  by_contra hnot
  obtain ⟨hnot, hl⟩ := not_or.mp hnot
  have hempty : seq l = [] ∨ seq other = [] := by
    by_contra h
    exact hnot (not_or.mp h)
  exact hr.not_swap halloc hl hempty _ hg

/-- Of two lists the first is empty. -/
theorem swap_of_empty_breaks :
    ∃ nodes, Rep twoLists nodes (Function.update (fun _ => []) true [1]) ∧
    ∀ propagate, ¬ Gives (Lists.swap propagate false true twoLists)
      (swapped false true (Function.update (fun _ => []) true [1])) := by
  obtain ⟨nodes, hr⟩ := rep_twoLists
  exact ⟨nodes, hr,
    fun propagate =>
      hr.not_swap (show twoLists.alloc false = twoLists.alloc true from rfl) Bool.false_ne_true
        (.inl rfl) _⟩

theorem swap_exchanges_twoLists :
    ∃ nodes, Rep twoLists nodes (Function.update (fun _ => []) true [1]) ∧
    (Gives (Lists.swap false false true twoLists)
      (swapped false true (Function.update (fun _ => []) true [1])) ↔
      (([] : List Nat) ≠ [] ∧ [1] ≠ []) ∨ false = true) := by
  obtain ⟨nodes, hr⟩ := rep_twoLists
  exact ⟨nodes, hr, swap_exchanges_iff false hr rfl⟩

end Gpcl.Lists
