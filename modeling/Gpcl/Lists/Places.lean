import Gpcl.Lists.Intrusive
import Mathlib.Logic.Equiv.Basic

/-! # The places of nodes in intrusive lists

`exchange` and `replace` are to put a node at the place of another one. Both write the links of the
two nodes; what they leave out are neighbours. -/
namespace Gpcl.Lists.Intrusive
open Lib.Rings Lib.Runs

variable {H ν : Type} [DecidableEq H] [DecidableEq ν]

/-- `intrusive_list_node_base::swap`. -/
def swap (a other : Node H ν) (L : Links (Node H ν)) : Links (Node H ν) :=
  let L := (L.setPrev a (L.prev other)).setPrev other (L.prev a)
  (L.setNext a (L.next other)).setNext other (L.next a)

def exchange (x y : ν) (L : Links (Node H ν)) : Links (Node H ν) := swap (.node x) (.node y) L

def replace (old node : ν) (L : Links (Node H ν)) : Links (Node H ν) :=
  replaceEntry (.node old) (.node node) L

/-- What `exchange` is for. -/
def exchanged (x y : ν) (seq : H → List ν) : H → List ν := fun h => (seq h).map (Equiv.swap x y)

/-- What `replace` is for: the node leaves the list it is in, and takes the place of the old one. -/
def replaced (old node : ν) (seq : H → List ν) : H → List ν :=
  fun h => ((seq h).erase node).replace old node

variable {L : Links (Node H ν)} {seq : H → List ν} {x y old n : ν} {h h' : H} {xs zs : List ν}

/-! ## exchange -/

theorem exchange_self (x : ν) : exchange x x L = L := by
  unfold exchange swap Links.setPrev Links.setNext
  simp only [Function.update_eq_self]

theorem exchange_comm (hxy : x ≠ y) : exchange x y L = exchange y x L := by
  have hne : Node.node x ≠ (.node y : Node H ν) := fun he => hxy (Node.node.inj he)
  unfold exchange swap Links.setPrev Links.setNext
  dsimp only
  rw [Function.update_comm hne, Function.update_comm hne]

/-- The nodes before `x` and `y` are not written. -/
theorem exchange_next_of_ne {a : Node H ν} (hx : a ≠ .node x) (hy : a ≠ .node y) :
    (exchange x y L).next a = L.next a := by
  unfold exchange swap Links.setPrev Links.setNext
  dsimp only
  rw [Function.update_of_ne hy, Function.update_of_ne hx]

omit [DecidableEq H] in
theorem exchanged_self (x : ν) (seq : H → List ν) : exchanged x x seq = seq := by
  funext h
  rw [exchanged, Equiv.swap_self, Equiv.coe_refl, List.map_id]

/-- The node before `x` still leads to `x`. -/
theorem Partition.not_exchanged_of_last (hp : Partition L seq none) (hseq : seq h = xs ++ x :: zs)
    (hxy : x ≠ y)
    (hlast : lastOf h xs ≠ .node y) : ¬ Partition (exchange x y L) (exchanged x y seq) none := by
  intro hp'
  have hlastx : lastOf h xs ≠ .node x := hp.family.lastOf_ne hseq List.mem_cons_self
  have hsame : lastOf h (xs.map (Equiv.swap x y)) = lastOf h xs := by
    rcases List.eq_nil_or_concat xs with rfl | ⟨ys, p, rfl⟩
    · rfl
    · rw [List.concat_eq_append] at hlast hlastx ⊢
      rw [lastOf_concat] at hlast hlastx
      have hpx : p ≠ x := fun he => hlastx (he ▸ rfl)
      have hpy : p ≠ y := fun he => hlast (he ▸ rfl)
      rw [List.map_append, List.map_singleton, lastOf_concat, lastOf_concat,
        Equiv.swap_apply_of_ne_of_ne hpx hpy]
  have hseq' : exchanged x y seq h = xs.map (Equiv.swap x y) ++ y :: zs.map (Equiv.swap x y) := by
    rw [exchanged, hseq, List.map_append, List.map_cons, Equiv.swap_apply_left]
  have hbefore : L.next (lastOf h xs) = .node x := (hp.family.adj hseq).1
  have hafter : (exchange x y L).next (lastOf h xs) = .node y := hsame ▸ (hp'.family.adj hseq').1
  rw [exchange_next_of_ne hlastx hlast, hbefore] at hafter
  exact hxy (Node.node.inj hafter)

theorem Partition.not_exchanged (hp : Partition L seq none) (hx : x ∈ seq h) (hxy : x ≠ y) :
    ¬ Partition (exchange x y L) (exchanged x y seq) none := by
  obtain ⟨xs, zs, hseq⟩ := List.append_of_mem hx
  by_cases hlast : lastOf h xs = .node y
  · -- `y` comes right before `x`, and the node before `y` is neither of them
    rcases List.eq_nil_or_concat xs with rfl | ⟨ys, p, rfl⟩
    · exact absurd hlast nofun
    · rw [List.concat_eq_append] at hlast hseq
      rw [lastOf_concat, Node.node.injEq] at hlast
      rw [hlast, List.append_assoc, List.singleton_append] at hseq
      have hne : lastOf h ys ≠ .node x :=
        hp.family.lastOf_ne hseq (List.mem_cons_of_mem _ List.mem_cons_self)
      have hswap : exchanged x y seq = exchanged y x seq := by
        unfold exchanged
        rw [Equiv.swap_comm]
      rw [exchange_comm hxy, hswap]
      exact hp.not_exchanged_of_last hseq hxy.symm hne
  · exact hp.not_exchanged_of_last hseq hxy hlast

/-- A node of a list trades its place with another one if and only if they are the same node: no
neighbour of theirs is written. -/
theorem exchange_trades_iff (hp : Partition L seq none) (hx : x ∈ seq h) :
    Partition (exchange x y L) (exchanged x y seq) none ↔ x = y := by
  refine ⟨fun hp' => ?_, fun he => ?_⟩
  · by_contra hxy
    exact hp.not_exchanged hx hxy hp'
  · rw [← he, exchange_self, exchanged_self]
    exact hp

/-- Two nodes, pushed to two lists or to one. -/
def twoPushed (l l' : Bool) : Links (Node (Option Bool) Nat) :=
  pushBack (some l') 1 (pushBack (some l) 0 (initial : State Bool Nat).links)

theorem partition_twoPushed (l l' : Bool) :
    ∃ seq, Partition (twoPushed l l') seq none ∧ 0 ∈ seq (some l) ∧ 1 ∈ seq (some l') := by
  have hp := (Refines.initial : Refines (initial : State Bool Nat) Seqs.initial).partition.pushBack
    (some l) 0
  have hp' := hp.pushBack (some l') 1
  refine ⟨_, hp', ?_, ?_⟩
  · cases l <;> cases l' <;> decide
  · rw [Function.update_self]
    exact List.mem_append_right _ List.mem_cons_self

/-- Neighbours in one list. -/
theorem exchange_neighbours_breaks :
    ∃ seq, Partition (twoPushed false false) seq none ∧ 0 ∈ seq (some false) ∧
    1 ∈ seq (some false) ∧
    ¬ Partition (exchange 0 1 (twoPushed false false)) (exchanged 0 1 seq) none := by
  obtain ⟨seq, hp, h₀, h₁⟩ := partition_twoPushed false false
  exact ⟨seq, hp, h₀, h₁, hp.not_exchanged h₀ Nat.zero_ne_one⟩

theorem exchange_trades_twoPushed : ∃ seq, Partition (twoPushed false true) seq none ∧
    (Partition (exchange 0 1 (twoPushed false true)) (exchanged 0 1 seq) none ↔ 0 = 1) := by
  obtain ⟨seq, hp, h₀, _⟩ := partition_twoPushed false true
  exact ⟨seq, hp, exchange_trades_iff hp h₀⟩

/-! ## replace -/

theorem Partition.replace_eq (hp : Partition L seq none) (hold : old ∈ seq h) :
    replace old n L =
      Intrusive.init (.node old)
        ((L.join (.node n) (L.next (.node old))).join (L.prev (.node old)) (.node n)) :=
  replaceEntry_eq (hp.family.next_ne hold)

omit [DecidableEq H] [DecidableEq ν] in
/-- A node in no list is as good as one that is out. -/
theorem Partition.leave (hp : Partition L seq none) (hn : ∀ g, n ∉ seq g) :
    Partition L seq (some n) :=
  ⟨hp.family, fun m _ => hp.alone m nofun, fun m g he => by cases he; exact hn g⟩

/-- An unlinked node is inserted behind the old one, and the old one erased. -/
theorem Partition.replace_eq_erase (hp : Partition L seq none) (hseq : seq h = xs ++ old :: zs)
    (hn : ∀ g, n ∉ seq g) :
    replace old n L = Intrusive.erase old
      (Intrusive.insertBetween (.node n) (.node old) (firstOf h zs) L) := by
  have hold : old ∈ seq h := by simp [hseq]
  have hne : Node.node old ≠ (.node n : Node H ν) := fun he => hn h (Node.node.inj he ▸ hold)
  have hfirst : firstOf h zs ≠ .node n := fun he => by
    have hm := firstOf_mem h (xs ++ [old]) zs
    rw [he, node_mem_cycle, List.append_assoc, List.singleton_append, ← hseq] at hm
    exact hn h hm
  obtain ⟨hprev, hnext⟩ := hp.family.neighbours hseq
  have hlast : lastOf h xs ≠ .node old := hp.family.lastOf_ne hseq List.mem_cons_self
  have hafter : firstOf h zs ≠ .node old := hnext ▸ hp.family.next_ne hold
  rw [hp.replace_eq hold, insertBetween_eq hne hfirst, Intrusive.erase, deleteEntry_eq, init_eq,
    init_eq, Links.join_prev_of_ne hafter.symm, L.join_prev_of_ne hne, Links.join_next_of_ne hne,
    (L.join_adj _ _).1, hprev, hnext, Links.join_join_join hne hlast.symm hfirst]

theorem Partition.replaced_eq (hp : Partition L seq none) (hseq : seq h = xs ++ old :: zs)
    (hn : ∀ g, n ∉ seq g) :
    replaced old n seq = Function.update seq h (xs ++ n :: zs) := by
  have hd := hp.family.nodup h
  rw [hseq] at hd
  have hxs : old ∉ xs := fun hm => List.disjoint_of_nodup_append hd hm List.mem_cons_self
  funext g
  rw [replaced, List.erase_of_not_mem (hn g), Function.update_apply]
  split
  · next hg => rw [hg, hseq, List.replace_append_right hxs, List.replace_cons_self]
  · next hg =>
      exact List.replace_of_not_mem fun hm => hg (hp.family.unique g h old hm (by simp [hseq]))

theorem Partition.replace (hp : Partition L seq none) (hold : old ∈ seq h) (hn : ∀ g, n ∉ seq g) :
    Partition (replace old n L) (replaced old n seq) none := by
  obtain ⟨xs, zs, hseq⟩ := List.append_of_mem hold
  have hplace : seq h = (xs ++ [old]) ++ zs := by
    rw [hseq, List.append_assoc, List.singleton_append]
  have hinsert := (hp.leave hn).insertBetween hplace
  rw [lastOf_concat] at hinsert
  have hnew : Function.update seq h (xs ++ [old] ++ n :: zs) h = xs ++ old :: (n :: zs) := by
    rw [Function.update_self, List.append_assoc, List.singleton_append]
  have herase := hinsert.erase old
  rw [hinsert.erase_eq hnew, Function.update_idem] at herase
  rw [hp.replace_eq_erase hseq hn, hp.replaced_eq hseq hn]
  exact herase

omit [DecidableEq H] in
theorem replaced_split (hold : old ∈ seq h) (hne : old ≠ n) :
    ∃ ys ws, (seq h).erase n = ys ++ old :: ws ∧ replaced old n seq h = ys ++ n :: ws := by
  obtain ⟨ys, ws, hs, hnot⟩ := List.eq_append_cons_of_mem ((List.mem_erase_of_ne hne).mpr hold)
  refine ⟨ys, ws, hs, ?_⟩
  rw [replaced, hs, List.replace_append_right hnot, List.replace_cons_self]

omit [DecidableEq H] in
theorem mem_replaced (hold : old ∈ seq h) (hne : old ≠ n) : n ∈ replaced old n seq h := by
  obtain ⟨ys, ws, _, hs⟩ := replaced_split hold hne
  rw [hs]
  exact List.mem_append_right _ List.mem_cons_self

omit [DecidableEq H] in
/-- The other nodes stay in their lists. -/
theorem mem_replaced_of_ne {m : ν} (hm : m ∈ seq h) (hmo : m ≠ old) (hmn : m ≠ n) :
    m ∈ replaced old n seq h := by
  have hmem : m ∈ (seq h).erase n := (List.mem_erase_of_ne hmn).mpr hm
  by_cases hold : old ∈ (seq h).erase n
  · obtain ⟨ys, ws, hs, hnot⟩ := List.eq_append_cons_of_mem hold
    rw [replaced, hs, List.replace_append_right hnot, List.replace_cons_self]
    rw [hs] at hmem
    simp only [List.mem_append, List.mem_cons] at hmem ⊢
    tauto
  · rw [replaced, List.replace_of_not_mem hold]
    exact hmem

/-- The node that was linked: it is followed by itself, or the node before it still leads to it. -/
theorem Partition.not_replaced (hp : Partition L seq none) (hold : old ∈ seq h) (hne : old ≠ n)
    (hn : n ∈ seq h') :
    ¬ Partition (Intrusive.replace old n L) (replaced old n seq) none := by
  intro hp'
  have hon : Node.node old ≠ (.node n : Node H ν) := fun he => hne (Node.node.inj he)
  rw [hp.replace_eq hold, init_eq] at hp'
  obtain ⟨_, hnext⟩ := hp.family.inverse (node_mem_cycle.mpr hold)
  obtain ⟨_, hback⟩ := hp.family.inverse (node_mem_cycle.mpr hn)
  have hself := hp'.family.next_ne (mem_replaced hold hne)
  rw [Links.join_next_of_ne hon.symm] at hself
  by_cases hlast : L.prev (.node old) = .node n
  · rw [hlast, (Links.join_adj _ _).1] at hself
    exact hself rfl
  · rw [Links.join_next_of_ne (Ne.symm hlast), (L.join_adj _ _).1] at hself
    -- the node before the new one is not written, since it is neither the old one nor the one
    -- before that
    have hbo : L.prev (.node n) ≠ .node old := fun he => hself (by rw [← he]; exact hback)
    have hbl : L.prev (.node n) ≠ L.prev (.node old) := fun he => by
      rw [he, hnext] at hback
      exact hon hback
    have hbn : L.prev (.node n) ≠ .node n := fun he => by
      rw [he] at hback
      exact hp.family.next_ne hn hback
    have hmem : L.prev (.node n) ∈ cycle h' (replaced old n seq h') := by
      obtain ⟨ys, ws, hseq⟩ := List.append_of_mem hn
      have hm := lastOf_mem h' ys (n :: ws)
      rw [← hseq, ← (hp.family.neighbours hseq).1] at hm
      cases hb : L.prev (.node n) with
      | head g =>
        rw [hb, head_mem_cycle] at hm
        exact head_mem_cycle.mpr hm
      | node m =>
        rw [hb] at hm hbo hbn
        have hmo : m ≠ old := fun he => hbo (he ▸ rfl)
        have hmn : m ≠ n := fun he => hbn (he ▸ rfl)
        exact node_mem_cycle.mpr (mem_replaced_of_ne (node_mem_cycle.mp hm) hmo hmn)
    obtain ⟨hprev, _⟩ := hp'.family.inverse hmem
    rw [Links.join_next_of_ne hbo, Links.join_next_of_ne hbl, L.join_next_of_ne hbn, hback,
      Links.join_prev_of_ne hon.symm, (Links.join_adj _ _).2] at hprev
    exact hbl hprev.symm

/-- A node takes the place of another one if and only if it is in no list: it does not leave the one
it is in. -/
theorem replace_replaces_iff (hp : Partition L seq none) (hold : old ∈ seq h) (hne : old ≠ n) :
    Partition (replace old n L) (replaced old n seq) none ↔ ∀ g, n ∉ seq g :=
  ⟨fun hp' _ hn => hp.not_replaced hold hne hn hp', hp.replace hold⟩

/-- The new node is in another list. -/
theorem replace_linked_breaks :
    ∃ seq, Partition (twoPushed false true) seq none ∧ 0 ∈ seq (some false) ∧
    1 ∈ seq (some true) ∧
    ¬ Partition (replace 0 1 (twoPushed false true)) (replaced 0 1 seq) none := by
  obtain ⟨seq, hp, h₀, h₁⟩ := partition_twoPushed false true
  exact ⟨seq, hp, h₀, h₁, hp.not_replaced h₀ Nat.zero_ne_one h₁⟩

theorem replace_replaces_unlinked : ∃ seq, Partition (twoPushed false true) seq none ∧
    (Partition (replace 0 2 (twoPushed false true)) (replaced 0 2 seq) none ↔ ∀ g, 2 ∉ seq g) := by
  obtain ⟨seq, hp, h₀, _⟩ := partition_twoPushed false true
  exact ⟨seq, hp, replace_replaces_iff hp h₀ (by decide)⟩

end Gpcl.Lists.Intrusive
