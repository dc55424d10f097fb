import Gpcl.Lib.Rings
import Gpcl.Lib.Runs

/-! # intrusive_list

Lists of nodes that carry their links themselves. A list is a head among the nodes; an operation
reads and writes links only, and finds neither the list a node is in nor its length. The loops
of `clear` and `reverse` have fuel. -/
namespace Gpcl.Lists.Intrusive
open Lib.Rings Lib.Runs

variable {H ν : Type}

section operations
variable [DecidableEq H] [DecidableEq ν]

/-- `intrusive_list_node_base::init`. -/
def init (a : Node H ν) (L : Links (Node H ν)) : Links (Node H ν) := (L.setPrev a a).setNext a a

def insertBetween (node prev next : Node H ν) (L : Links (Node H ν)) : Links (Node H ν) :=
  let L := L.setPrev next node
  let L := L.setNext node next
  let L := L.setPrev node prev
  L.setNext prev node

def deleteBetween (prev next : Node H ν) (L : Links (Node H ν)) : Links (Node H ν) :=
  let L := L.setPrev next prev
  L.setNext prev next

def deleteEntry (entry : Node H ν) (L : Links (Node H ν)) : Links (Node H ν) :=
  deleteBetween (L.prev entry) (L.next entry) L

def replaceEntry (old node : Node H ν) (L : Links (Node H ν)) : Links (Node H ν) :=
  let L := L.setNext node (L.next old)
  let L := L.setPrev (L.next node) node
  let L := L.setPrev node (L.prev old)
  let L := L.setNext (L.prev node) node
  init old L

def isEmpty (h : H) (L : Links (Node H ν)) : Bool := L.next (.head h) = .head h

def pushFront (h : H) (n : ν) (L : Links (Node H ν)) : Links (Node H ν) :=
  let L := deleteEntry (.node n) L
  insertBetween (.node n) (.head h) (L.next (.head h)) L

def pushBack (h : H) (n : ν) (L : Links (Node H ν)) : Links (Node H ν) :=
  let L := deleteEntry (.node n) L
  insertBetween (.node n) (L.prev (.head h)) (.head h) L

def erase (n : ν) (L : Links (Node H ν)) : Links (Node H ν) :=
  init (.node n) (deleteEntry (.node n) L)

def front (h : H) (L : Links (Node H ν)) : Option ν :=
  if isEmpty h L then none else (L.next (.head h)).element

def back (h : H) (L : Links (Node H ν)) : Option ν :=
  if isEmpty h L then none else (L.prev (.head h)).element

def popFront (h : H) (L : Links (Node H ν)) : Option (Links (Node H ν)) :=
  (front h L).map (erase · L)

def popBack (h : H) (L : Links (Node H ν)) : Option (Links (Node H ν)) := (back h L).map (erase · L)

def clear : Nat → H → Links (Node H ν) → Option (Links (Node H ν))
  | 0, _, _ => none
  | fuel + 1, h, L => if isEmpty h L then some L else (popBack h L).bind (clear fuel h)

/-- The first loop of `reverse`, from the list to the stack. -/
def unloadLoop : Nat → H → H → Links (Node H ν) → Option (Links (Node H ν))
  | 0, _, _, _ => none
  | fuel + 1, h, stack, L =>
    if isEmpty h L then some L
    else (front h L).bind fun entry =>
      unloadLoop fuel h stack (pushBack stack entry (erase entry L))

/-- The second one, from the top of the stack to the list. -/
def reloadLoop : Nat → H → H → Links (Node H ν) → Option (Links (Node H ν))
  | 0, _, _, _ => none
  | fuel + 1, h, stack, L =>
    if isEmpty stack L then some L
    else (back stack L).bind fun entry => reloadLoop fuel h stack (pushBack h entry (erase entry L))

/-- `reverse()`, with the destructor of its local list. -/
def reverse (fuel : Nat) (h stack : H) (L : Links (Node H ν)) : Option (Links (Node H ν)) :=
  (unloadLoop fuel h stack (init (.head stack) L)).bind fun L =>
    (reloadLoop fuel h stack L).bind (clear fuel stack)

def moveConstruct (h other : H) (L : Links (Node H ν)) : Links (Node H ν) :=
  let L := init (.head h) L
  if isEmpty other L then L else replaceEntry (.head other) (.head h) L

def moveAssign (fuel : Nat) (h other : H) (L : Links (Node H ν)) : Option (Links (Node H ν)) :=
  if h = other then some L
  else (clear fuel h L).map fun L => if isEmpty other L then L
    else replaceEntry (.head other) (.head h) L

end operations

/-! ## Rings and sequences -/

/-- The heads have the rings of their sequences, and a node in no sequence is alone; the links of
`out` may be anything. -/
structure Partition (L : Links (Node H ν)) (seq : H → List ν) (out : Option ν) : Prop where
  family : Family L seq
  alone : ∀ n, some n ≠ out → (∀ h, n ∉ seq h) → L.next (.node n) = .node n ∧
    L.prev (.node n) = .node n
  outside : ∀ n h, some n = out → n ∉ seq h

section partition
variable [DecidableEq H] [DecidableEq ν]
variable {L L' : Links (Node H ν)} {seq : H → List ν} {n : ν} {h h' : H} {xs zs : List ν}
    {out : Option ν}

theorem deleteEntry_eq (a : Node H ν) : deleteEntry a L = L.join (L.prev a) (L.next a) := rfl

theorem init_eq (a : Node H ν) : init a L = L.join a a := rfl

theorem insertBetween_eq {a p q : Node H ν} (hp : p ≠ a) (hq : q ≠ a) :
    insertBetween a p q L = (L.join p a).join a q := by
  unfold insertBetween Links.join Links.setNext Links.setPrev
  dsimp only
  rw [Function.update_comm hp, Function.update_comm hq.symm]

/-- A node of one list is in no other one. -/
theorem Partition.erase_eq (hp : Partition L seq out) (hseq : seq h = xs ++ n :: zs) :
    (fun g => (seq g).erase n) = Function.update seq h (xs ++ zs) := by
  funext g
  rw [Function.update_apply]
  split
  · next he =>
    have hnx : n ∉ xs := fun hm => by
      have hd := hp.family.nodup h
      rw [hseq] at hd
      exact List.disjoint_of_nodup_append hd hm List.mem_cons_self
    rw [he, hseq, List.erase_append_right _ hnx, List.erase_cons_head]
  · next he =>
    refine List.erase_of_not_mem fun hm => he (hp.family.unique g h n hm ?_)
    rw [hseq]; exact List.mem_append_right _ List.mem_cons_self

/-- A node leaves the list it is in, if any; its own links stay. -/
theorem Partition.deleteEntry (hp : Partition L seq none) (n : ν) :
    Partition (deleteEntry (.node n) L) (fun h => (seq h).erase n) (some n) := by
  have hgone : ∀ g, n ∉ (seq g).erase n := fun g => (hp.family.nodup g).not_mem_erase
  by_cases hin : ∃ h, n ∈ seq h
  · obtain ⟨h, hn⟩ := hin
    obtain ⟨xs, zs, hseq⟩ := List.append_of_mem hn
    obtain ⟨hprev, hnext⟩ := hp.family.neighbours hseq
    refine ⟨?_, fun m hm hout => ?_, fun m h' hm => by cases hm; exact hgone h'⟩
    · rw [deleteEntry_eq, hprev, hnext, hp.erase_eq hseq]
      exact hp.family.cut (show seq h = xs ++ ([n] ++ zs) from hseq)
    · have hmn : m ≠ n := fun he => hm (he ▸ rfl)
      have hall : ∀ h', m ∉ seq h' := fun h' hm' => hout h' ((List.mem_erase_of_ne hmn).mpr hm')
      have hnot : Node.node m ∉ cycle h (seq h) := fun hm' => hall h (node_mem_cycle.mp hm')
      have hlast : lastOf h xs ∈ cycle h (seq h) := hseq ▸ lastOf_mem h xs _
      have hfirst : firstOf h zs ∈ cycle h (seq h) := by
        rw [hseq, List.append_cons]
        exact firstOf_mem h _ zs
      rw [deleteEntry_eq, hprev, hnext, L.join_next_of_ne (ne_of_mem_of_not_mem hlast hnot).symm,
        L.join_prev_of_ne (ne_of_mem_of_not_mem hfirst hnot).symm]
      exact hp.alone m nofun hall
  · push Not at hin
    obtain ⟨hnext, hprev⟩ := hp.alone n nofun hin
    have herase : (fun h => (seq h).erase n) = seq := funext fun h => List.erase_of_not_mem (hin h)
    rw [deleteEntry_eq, hnext, hprev, herase]
    refine ⟨hp.family.join_of_not_mem (fun h hm => hin h (node_mem_cycle.mp hm))
      (fun h hm => hin h (node_mem_cycle.mp hm)),
      fun m hm hout => ?_, fun m h hm => by cases hm; exact hin h⟩
    have hne : Node.node m ≠ (.node n : Node H ν) := fun he => hm (by cases he; rfl)
    rw [L.join_next_of_ne hne, L.join_prev_of_ne hne]
    exact hp.alone m nofun hout

/-- The node that is out goes into a list. -/
theorem Partition.insertBetween (hp : Partition L seq (some n)) (hseq : seq h = xs ++ zs) :
    Partition (insertBetween (.node n) (lastOf h xs) (firstOf h zs) L)
      (Function.update seq h (xs ++ n :: zs)) none := by
  have hlast : lastOf h xs ∈ cycle h (seq h) := hseq ▸ lastOf_mem h xs _
  have hfirst : firstOf h zs ∈ cycle h (seq h) := hseq ▸ firstOf_mem h xs zs
  have hnew : ∀ h', Node.node n ∉ cycle h' (seq h') :=
    fun h' hm => hp.outside n h' rfl (node_mem_cycle.mp hm)
  rw [insertBetween_eq (ne_of_mem_of_not_mem hlast (hnew h)) (ne_of_mem_of_not_mem hfirst (hnew h))]
  refine ⟨hp.family.paste_one hseq fun g => hp.outside n g rfl, fun m _ hout => ?_, nofun⟩
  have hmn : Node.node m ≠ (.node n : Node H ν) := fun he => by
    cases he
    exact hout h (by rw [Function.update_self]; exact List.mem_append_right _ List.mem_cons_self)
  have hall : ∀ h', m ∉ seq h' := fun h' hm => hout h' (by
    rw [Function.update_apply]
    split
    · next he =>
      rw [he, hseq] at hm
      exact ((List.sublist_cons_self n zs).append_left xs).subset hm
    · exact hm)
  have hnot : Node.node m ∉ cycle h (seq h) := fun hm => hall h (node_mem_cycle.mp hm)
  rw [Links.join_next_of_ne hmn, Links.join_prev_of_ne (ne_of_mem_of_not_mem hfirst hnot).symm,
    L.join_next_of_ne (ne_of_mem_of_not_mem hlast hnot).symm, L.join_prev_of_ne hmn]
  exact hp.alone m (fun he => hmn (by cases he; rfl)) hall

/-- The node that is out is linked to itself. -/
theorem Partition.init (hp : Partition L seq (some n)) : Partition (init (.node n) L) seq none := by
  have hnew : ∀ h', Node.node n ∉ cycle h' (seq h') :=
    fun h' hm => hp.outside n h' rfl (node_mem_cycle.mp hm)
  rw [init_eq]
  refine ⟨hp.family.join_of_not_mem hnew hnew, fun m _ hout => ?_, nofun⟩
  by_cases hmn : m = n
  · rw [hmn]; exact L.join_adj _ _
  · have hne : Node.node m ≠ (.node n : Node H ν) := fun he => hmn (by cases he; rfl)
    rw [L.join_next_of_ne hne, L.join_prev_of_ne hne]
    exact hp.alone m (fun he => hmn (by cases he; rfl)) hout

/-- An empty list is initialised again. -/
theorem Partition.init_head (hp : Partition L seq none) (hseq : seq h = []) :
    Partition (Intrusive.init (.head h) L) seq none := by
  rw [init_eq]
  refine ⟨hp.family.isolate hseq, fun m hm hout => ?_, nofun⟩
  have hne : Node.node m ≠ Node.head h := nofun
  rw [L.join_next_of_ne hne, L.join_prev_of_ne hne]
  exact hp.alone m hm hout

theorem replaceEntry_eq {old a : Node H ν} (h : L.next old ≠ old) :
    replaceEntry old a L = Intrusive.init old ((L.join a (L.next old)).join (L.prev old) a) := by
  unfold replaceEntry Links.join Links.setNext Links.setPrev
  simp only [Function.update_self, Function.update_of_ne (Ne.symm h)]

/-- The sequence of a list goes to the head of an empty one. -/
theorem Partition.replaceEntry (hp : Partition L seq none) (hh : h ≠ h') (hseq : seq h = [])
    (hne : seq h' ≠ []) :
    Partition (replaceEntry (.head h') (.head h) L)
      (Function.update (Function.update seq h (seq h')) h' []) none := by
  obtain ⟨x, xs, hseq'⟩ := List.exists_cons_of_ne_nil hne
  have hadj : L.Adj (lastOf h' []) (firstOf h' (x :: xs)) := hp.family.adj hseq'
  have hfirst : L.next (.head h') = .node x := hadj.1
  have hlast : L.prev (.head h') = lastOf h' (seq h') := (hp.family.adj (List.append_nil _).symm).2
  have hx : Node.node x ∈ cycle h' (seq h') := node_mem_cycle.mpr (hseq' ▸ List.mem_cons_self)
  have hy : lastOf h' (seq h') ∈ cycle h' (seq h') := by
    have hm := lastOf_mem h' (seq h') []
    rwa [List.append_nil] at hm
  rw [replaceEntry_eq (by rw [hfirst]; exact nofun), hfirst, hlast, init_eq]
  refine ⟨?_, fun m hm hout => ?_, nofun⟩
  · have hsplice :=
      hp.family.splice (h := h) (show seq h' = [] ++ (x :: xs ++ []) by simpa using hseq')
      (show Function.update seq h' [] h = [] ++ [] by rw [Function.update_of_ne hh, hseq]; rfl)
    have hne : (Node.head h : Node H ν) ≠ .head h' := fun he => hh (Node.head.inj he)
    have hy' : lastOf h' (seq h') ≠ (.head h' : Node H ν) := fun he => by
      obtain ⟨m, _, hm⟩ := exists_last h' x xs
      rw [hseq', hm] at he
      cases he
    have hx' : (Node.node x : Node H ν) ≠ .head h' := nofun
    rw [Links.join_comm hy' hne, Links.join_comm hne hx', Function.update_comm hh]
    rw [List.nil_append, List.append_nil, ← hseq'] at hsplice
    rw [← lastOf_cons h', ← hseq'] at hsplice
    exact hsplice
  · have hall : ∀ g, m ∉ seq g := fun g hm' => by
      by_cases hg' : g = h'
      · refine hout h ?_
        rw [Function.update_of_ne hh, Function.update_self]
        exact hg' ▸ hm'
      · have hg : g ≠ h := fun he => by rw [he, hseq] at hm'; cases hm'
        exact hout g (by rw [Function.update_of_ne hg', Function.update_of_ne hg]; exact hm')
    have hnot : Node.node m ∉ cycle h' (seq h') := fun hm' => hall h' (node_mem_cycle.mp hm')
    have hne : ∀ g : H, Node.node m ≠ Node.head g := nofun
    rw [Links.join_next_of_ne (hne h'), Links.join_prev_of_ne (hne h'),
      Links.join_next_of_ne (ne_of_mem_of_not_mem hy hnot).symm, Links.join_prev_of_ne (hne h),
      L.join_next_of_ne (hne h), L.join_prev_of_ne (ne_of_mem_of_not_mem hx hnot).symm]
    exact hp.alone m hm hall

theorem Partition.isEmpty (hp : Partition L seq out) : isEmpty h L = true ↔ seq h = [] := by
  have hadj : L.Adj (lastOf h []) (firstOf h (seq h)) := hp.family.adj rfl
  have hnext : L.next (.head h) = firstOf h (seq h) := hadj.1
  unfold Intrusive.isEmpty
  rw [decide_eq_true_iff, hnext]
  cases seq h with
  | nil => exact ⟨fun _ => rfl, fun _ => rfl⟩
  | cons x xs => exact ⟨nofun, nofun⟩

/-- The end of both move operations. -/
theorem Partition.takeOver (hp : Partition L seq none) (hh : h ≠ h') (hseq : seq h = []) :
    Partition (if Intrusive.isEmpty h' L then L else Intrusive.replaceEntry (.head h') (.head h) L)
      (Function.update (Function.update seq h (seq h')) h' []) none := by
  split
  · next he =>
    have hnil := hp.isEmpty.mp he
    rw [hnil, ← hseq, Function.update_eq_self, hseq, ← hnil, Function.update_eq_self]
    exact hp
  · next he => exact hp.replaceEntry hh hseq fun hnil => he (hp.isEmpty.mpr hnil)

theorem Partition.front (hp : Partition L seq out) {x : ν} (hseq : seq h = x :: xs) :
    front h L = some x := by
  have hadj : L.Adj (lastOf h []) (firstOf h (x :: xs)) := hp.family.adj hseq
  have hnext : L.next (.head h) = .node x := hadj.1
  have hne : ¬ Intrusive.isEmpty h L = true := fun he => by
    rw [hp.isEmpty, hseq] at he
    cases he
  rw [Intrusive.front, if_neg hne, hnext]
  rfl

theorem Partition.back (hp : Partition L seq out) {x : ν} (hseq : seq h = xs ++ [x]) :
    back h L = some x := by
  have hadj : L.Adj (lastOf h (xs ++ [x])) (firstOf h []) :=
    hp.family.adj (by rw [hseq, List.append_nil])
  have hprev : L.prev (.head h) = .node x := by
    rw [lastOf, List.map_append, List.map_singleton, List.getLastD_concat] at hadj
    exact hadj.2
  have hne : ¬ Intrusive.isEmpty h L = true := fun he => by
    rw [hp.isEmpty, hseq] at he
    simp at he
  rw [Intrusive.back, if_neg hne, hprev]
  rfl

theorem Partition.pushFront (hp : Partition L seq none) (h : H) (n : ν) :
    Partition (pushFront h n L)
      (Function.update (fun g => (seq g).erase n) h (n :: (seq h).erase n)) none := by
  have hd := hp.deleteEntry n
  have hadj : (Intrusive.deleteEntry (.node n) L).Adj (lastOf h []) (firstOf h ((seq h).erase n)) :=
    hd.family.adj rfl
  have hi := hd.insertBetween (h := h) (List.nil_append _).symm
  rw [← hadj.1] at hi
  exact hi

theorem Partition.pushBack (hp : Partition L seq none) (h : H) (n : ν) :
    Partition (pushBack h n L)
      (Function.update (fun g => (seq g).erase n) h ((seq h).erase n ++ [n])) none := by
  have hd := hp.deleteEntry n
  have hadj : (Intrusive.deleteEntry (.node n) L).Adj (lastOf h ((seq h).erase n)) (firstOf h []) :=
    hd.family.adj (List.append_nil _).symm
  have hi := hd.insertBetween (h := h) (List.append_nil _).symm
  rw [← hadj.2] at hi
  exact hi

theorem Partition.erase (hp : Partition L seq none) (n : ν) :
    Partition (erase n L) (fun g => (seq g).erase n) none :=
  (hp.deleteEntry n).init

/-- A node in no list goes to the end of one. -/
theorem Partition.pushBack_new (hp : Partition L seq none) (h : H) (hn : ∀ g, n ∉ seq g) :
    Partition (Intrusive.pushBack h n L) (Function.update seq h (seq h ++ [n])) none := by
  have hpush := hp.pushBack h n
  have he : (fun g => (seq g).erase n) = seq := funext fun g => List.erase_of_not_mem (hn g)
  rw [he, List.erase_of_not_mem (hn h)] at hpush
  exact hpush

theorem Partition.popBack (hp : Partition L seq none) {x : ν} (hseq : seq h = xs ++ [x]) :
    ∃ L', popBack h L = some L' ∧ Partition L' (Function.update seq h xs) none := by
  refine ⟨Intrusive.erase x L, by rw [Intrusive.popBack, hp.back hseq]; rfl, ?_⟩
  have he := hp.erase x
  rw [hp.erase_eq hseq, List.append_nil] at he
  exact he

theorem Partition.popFront (hp : Partition L seq none) {x : ν} (hseq : seq h = x :: xs) :
    ∃ L', popFront h L = some L' ∧ Partition L' (Function.update seq h xs) none := by
  refine ⟨Intrusive.erase x L, by rw [Intrusive.popFront, hp.front hseq]; rfl, ?_⟩
  have he := hp.erase x
  rw [hp.erase_eq (show seq h = [] ++ x :: xs from hseq), List.nil_append] at he
  exact he

/-- The loop of `clear` ends. -/
theorem Partition.clear (hp : Partition L seq none) {fuel : Nat} (hf : (seq h).length < fuel) :
    ∃ L', clear fuel h L = some L' ∧ Partition L' (Function.update seq h []) none := by
  induction fuel generalizing L seq with
  | zero => exact absurd hf (Nat.not_lt_zero _)
  | succ fuel ih =>
    unfold Intrusive.clear
    rcases List.eq_nil_or_concat (seq h) with hnil | ⟨xs, x, hseq⟩
    · rw [if_pos (hp.isEmpty.mpr hnil)]
      refine ⟨L, rfl, ?_⟩
      rw [← hnil, Function.update_eq_self]
      exact hp
    · rw [List.concat_eq_append] at hseq
      obtain ⟨L₁, hpop, hp₁⟩ := hp.popBack hseq
      rw [if_neg (fun he => by rw [hp.isEmpty, hseq] at he; simp at he), hpop, Option.bind_some]
      have hlen : (Function.update seq h xs h).length < fuel := by
        rw [Function.update_self]
        rw [hseq, List.length_append, List.length_singleton] at hf
        omega
      obtain ⟨L₂, hclear, hp₂⟩ := ih hp₁ hlen
      rw [Function.update_idem] at hp₂
      exact ⟨L₂, hclear, hp₂⟩

/-- An entry of one list goes to the end of another one. -/
theorem Partition.transfer (hp : Partition L seq none) (hh : h ≠ h') {x : ν}
    (hseq : seq h = xs ++ x :: zs) :
    Partition (Intrusive.pushBack h' x (Intrusive.erase x L))
      (Function.update (Function.update seq h (xs ++ zs)) h' (seq h' ++ [x]))
      none := by
  have hgone : ∀ g, x ∉ (seq g).erase x := fun g => (hp.family.nodup g).not_mem_erase
  have hpush := (hp.erase x).pushBack_new h' hgone
  rw [hp.erase_eq hseq] at hpush
  have he : (seq h').erase x = seq h' :=
    List.erase_of_not_mem fun hm => hh (hp.family.unique h h' x (hseq ▸ by simp) hm)
  rw [he] at hpush
  exact hpush

omit [DecidableEq ν] in
/-- Of several writes to two lists the last ones stay. -/
theorem update_update (a b c d : List ν) :
    Function.update (Function.update (Function.update (Function.update seq h a) h' b) h c) h' d =
      Function.update (Function.update seq h c) h' d := by
  funext g
  simp only [Function.update_apply]
  split_ifs <;> rfl

theorem Partition.unloadLoop (hp : Partition L seq none) (hh : h ≠ h') {fuel : Nat}
    (hf : (seq h).length < fuel) :
    ∃ L', unloadLoop fuel h h' L = some L' ∧
      Partition L' (Function.update (Function.update seq h []) h' (seq h' ++ seq h)) none := by
  induction fuel generalizing L seq with
  | zero => exact absurd hf (Nat.not_lt_zero _)
  | succ fuel ih =>
    unfold Intrusive.unloadLoop
    cases hseq : seq h with
    | nil =>
      rw [if_pos (hp.isEmpty.mpr hseq)]
      refine ⟨L, rfl, ?_⟩
      rw [← hseq, Function.update_eq_self, hseq, List.append_nil, Function.update_eq_self]
      exact hp
    | cons x xs =>
      rw [if_neg (fun he => by rw [hp.isEmpty, hseq] at he; cases he), hp.front hseq,
        Option.bind_some]
      have hp₁ := hp.transfer hh (show seq h = [] ++ x :: xs from hseq)
      rw [List.nil_append] at hp₁
      have hself : Function.update (Function.update seq h xs) h' (seq h' ++ [x]) h = xs := by
        rw [Function.update_of_ne hh, Function.update_self]
      have hlen :
          (Function.update (Function.update seq h xs) h' (seq h' ++ [x]) h).length < fuel := by
        rw [hself]
        rw [hseq, List.length_cons] at hf
        omega
      obtain ⟨L₂, hloop, hp₂⟩ := ih hp₁ hlen
      refine ⟨L₂, hloop, ?_⟩
      rw [hself, Function.update_self, update_update, List.append_assoc,
        List.singleton_append] at hp₂
      exact hp₂

theorem Partition.reloadLoop (hp : Partition L seq none) (hh : h ≠ h') {fuel : Nat}
    (hf : (seq h').length < fuel) :
    ∃ L', reloadLoop fuel h h' L = some L' ∧
      Partition L' (Function.update (Function.update seq h' []) h (seq h ++ (seq h').reverse))
        none := by
  induction fuel generalizing L seq with
  | zero => exact absurd hf (Nat.not_lt_zero _)
  | succ fuel ih =>
    unfold Intrusive.reloadLoop
    rcases List.eq_nil_or_concat (seq h') with hseq | ⟨xs, x, hseq⟩
    · rw [if_pos (hp.isEmpty.mpr hseq)]
      refine ⟨L, rfl, ?_⟩
      rw [← hseq, Function.update_eq_self, hseq, List.reverse_nil, List.append_nil,
        Function.update_eq_self]
      exact hp
    · rw [List.concat_eq_append] at hseq
      rw [if_neg (fun he => by rw [hp.isEmpty, hseq] at he; simp at he), hp.back hseq,
        Option.bind_some]
      have hp₁ := hp.transfer hh.symm hseq
      rw [List.append_nil] at hp₁
      have hself : Function.update (Function.update seq h' xs) h (seq h ++ [x]) h' = xs := by
        rw [Function.update_of_ne hh.symm, Function.update_self]
      have hlen :
          (Function.update (Function.update seq h' xs) h (seq h ++ [x]) h').length < fuel := by
        rw [hself]
        rw [hseq, List.length_append, List.length_singleton] at hf
        omega
      obtain ⟨L₂, hloop, hp₂⟩ := ih hp₁ hlen
      refine ⟨L₂, hloop, ?_⟩
      rw [hself, Function.update_self, update_update, List.append_assoc] at hp₂
      rw [hseq, List.reverse_append, List.reverse_singleton]
      exact hp₂

/-- Both loops of `reverse` end, and its local list is empty again. -/
theorem Partition.reverse (hp : Partition L seq none) (hh : h ≠ h') (hseq : seq h' = [])
    {fuel : Nat} (hf : (seq h).length < fuel) :
    ∃ L', reverse fuel h h' L = some L' ∧
    Partition L' (Function.update seq h (seq h).reverse) none := by
  obtain ⟨L₁, h₁, hp₁⟩ := (hp.init_head hseq).unloadLoop hh hf
  rw [hseq, List.nil_append] at hp₁
  have hself : Function.update (Function.update seq h []) h' (seq h) h' = seq h :=
    Function.update_self _ _ _
  have hother : Function.update (Function.update seq h []) h' (seq h) h = [] := by
    rw [Function.update_of_ne hh, Function.update_self]
  obtain ⟨L₂, h₂, hp₂⟩ := hp₁.reloadLoop hh (by rw [hself]; exact hf)
  rw [hself, hother, List.nil_append, Function.update_idem, Function.update_comm hh,
    Function.update_idem, ← hseq, Function.update_eq_self] at hp₂
  have hempty : Function.update seq h (seq h).reverse h' = [] :=
    (Function.update_of_ne hh.symm _ _).trans hseq
  have hf' : (Function.update seq h (seq h).reverse h').length < fuel := by
    rw [hempty]; exact Nat.zero_lt_of_lt hf
  obtain ⟨L₃, h₃, hp₃⟩ := hp₂.clear hf'
  rw [← hempty, Function.update_eq_self] at hp₃
  exact ⟨L₃, by rw [Intrusive.reverse, h₁, Option.bind_some, h₂, Option.bind_some, h₃], hp₃⟩

end partition

/-! ## Runs -/

variable {I : Type}

inductive Act (I ν : Type)
  | construct (l : I)
  | destroy (l : I)
  | pushFront (l : I) (n : ν)
  | pushBack (l : I) (n : ν)
  | erase (l : I) (n : ν)
  | popFront (l : I)
  | popBack (l : I)
  | clear (l : I)
  | reverse (l : I)
  | moveConstruct (l other : I)
  | moveAssign (l other : I)

/-- The heads are those of the lists and the one of the local list of `reverse`. -/
structure State (I ν : Type) where
  links : Links (Node (Option I) ν)
  alive : I → Bool

def initial : State I ν := ⟨⟨id, id⟩, fun _ => false⟩

/-- What the operations are for: sequences. -/
structure Seqs (I ν : Type) where
  seq : I → List ν
  alive : I → Bool

def Seqs.initial : Seqs I ν := ⟨fun _ => [], fun _ => false⟩

variable [DecidableEq I] [DecidableEq ν]

def onList (l : I) (f : Links (Node (Option I) ν) → Option (Links (Node (Option I) ν)))
    (s : State I ν) : Option (State I ν) :=
  if s.alive l then (f s.links).map fun L => { s with links := L } else none

def step (fuel : Nat) (s : State I ν) : Act I ν → Option (State I ν)
  | .construct l =>
    if s.alive l then none else some ⟨init (.head (some l)) s.links, Function.update s.alive l true⟩
  | .destroy l =>
    (onList l (clear fuel (some l)) s).map fun s =>
      { s with alive := Function.update s.alive l false }
  | .pushFront l n => onList l (fun L => some (pushFront (some l) n L)) s
  | .pushBack l n => onList l (fun L => some (pushBack (some l) n L)) s
  | .erase l n => onList l (fun L => some (erase n L)) s
  | .popFront l => onList l (popFront (some l)) s
  | .popBack l => onList l (popBack (some l)) s
  | .clear l => onList l (clear fuel (some l)) s
  | .reverse l => onList l (reverse fuel (some l) none) s
  | .moveConstruct l other =>
    if s.alive l then none
    else (onList other (fun L => some (moveConstruct (some l) (some other) L)) s).map
      fun s => { s with alive := Function.update s.alive l true }
  | .moveAssign l other =>
    if s.alive other then onList l (moveAssign fuel (some l) (some other)) s else none

def Step (fuel : Nat) (s : State I ν) (a : Act I ν) (s' : State I ν) : Prop :=
  step fuel s a = some s'

/-- A node leaves the sequence it is in. -/
def remove (n : ν) (seq : I → List ν) : I → List ν := fun l => (seq l).erase n

def onSeq (l : I) (seq : Option (I → List ν)) (A : Seqs I ν) : Option (Seqs I ν) :=
  if A.alive l then seq.map fun seq => { A with seq := seq } else none

def specStep (A : Seqs I ν) : Act I ν → Option (Seqs I ν)
  | .construct l =>
    if A.alive l then none else some { A with alive := Function.update A.alive l true }
  | .destroy l =>
    if A.alive l then some ⟨Function.update A.seq l [], Function.update A.alive l false⟩ else none
  | .pushFront l n => onSeq l (some (Function.update (remove n A.seq) l (n :: remove n A.seq l))) A
  | .pushBack l n => onSeq l (some (Function.update (remove n A.seq) l (remove n A.seq l ++ [n]))) A
  | .erase l n => onSeq l (some (remove n A.seq)) A
  | .popFront l =>
    onSeq l (if A.seq l = [] then none else some (Function.update A.seq l (A.seq l).tail)) A
  | .popBack l =>
    onSeq l (if A.seq l = [] then none else some (Function.update A.seq l (A.seq l).dropLast)) A
  | .clear l => onSeq l (some (Function.update A.seq l [])) A
  | .reverse l => onSeq l (some (Function.update A.seq l (A.seq l).reverse)) A
  | .moveConstruct l other =>
    if A.alive l = false ∧ A.alive other then
      some ⟨Function.update (Function.update A.seq l (A.seq other)) other [],
        Function.update A.alive l true⟩
    else none
  | .moveAssign l other =>
    if A.alive l ∧ A.alive other then
      some (if l = other then A
        else { A with seq := Function.update (Function.update A.seq l (A.seq other)) other [] })
    else none

def SpecStep (A : Seqs I ν) (a : Act I ν) (A' : Seqs I ν) : Prop := specStep A a = some A'

/-- Nodes and heads are in disjoint rings (the local list of `reverse` is empty between the
operations), one for each list with its sequence, and a node in no list is alone. -/
structure Refines (s : State I ν) (A : Seqs I ν) : Prop where
  alive : s.alive = A.alive
  dead : ∀ l, A.alive l = false → A.seq l = []
  partition : Partition s.links (byHead A.seq) none

section runs
variable {s : State I ν} {A A' : Seqs I ν} {l : I}

omit [DecidableEq I] in
theorem byHead_remove (n : ν) (seq : I → List ν) :
    byHead (remove n seq) = fun h => (byHead seq h).erase n := by
  funext h
  cases h with
  | none => rfl
  | some l => rfl

omit [DecidableEq I] [DecidableEq ν] in
theorem Refines.initial : Refines (initial : State I ν) Seqs.initial where
  alive := rfl
  dead _ _ := rfl
  partition := by
    refine ⟨⟨fun h => ?_, fun h _ _ hm => ?_⟩, fun _ _ _ => ⟨rfl, rfl⟩, nofun⟩
    · cases h <;> exact ⟨List.isChain_pair.mpr ⟨rfl, rfl⟩, List.nodup_singleton _⟩
    · cases h <;> cases hm

omit [DecidableEq I] [DecidableEq ν] in
/-- An operation on a list of the program, and what it is for. -/
theorem Refines.onList (hr : Refines s A)
    {f : Links (Node (Option I) ν) → Option (Links (Node (Option I) ν))} {o : Option (I → List ν)}
    (h : onSeq l o A = some A')
    (hf : ∀ seq, o = some seq → ∃ L, f s.links = some L ∧ Partition L (byHead seq) none)
    (hdead : ∀ seq l', o = some seq → l' ≠ l → A.seq l' = [] → seq l' = []) :
    ∃ s', onList l f s = some s' ∧ Refines s' A' := by
  unfold onSeq at h
  split at h
  · next hl =>
    obtain ⟨seq, ho, rfl⟩ := Option.map_eq_some_iff.mp h
    obtain ⟨L, hL, hp⟩ := hf seq ho
    refine ⟨{ s with links := L }, by rw [Intrusive.onList, hr.alive, if_pos hl, hL]; rfl, hr.alive,
      fun l' hl' => ?_, hp⟩
    exact hdead seq l' ho (fun he => by rw [he, hl] at hl'; cases hl') (hr.dead l' hl')
  · cases h

omit [DecidableEq ν] in
theorem update_dead {seq : I → List ν} {xs : List ν} (seq' : I → List ν) (l' : I)
    (h : some (Function.update seq l xs) = some seq') (hl : l' ≠ l)
    (hs : seq l' = []) : seq' l' = [] := by
  cases h
  rw [Function.update_of_ne hl, hs]

omit [DecidableEq I] in
theorem remove_nil {seq : I → List ν} {n : ν} {l' : I} (h : seq l' = []) :
    remove n seq l' = [] := by
  rw [remove, h]; rfl

/-- The rounds of the loops of an operation. -/
def rounds (A : Seqs I ν) : Act I ν → Nat
  | .destroy l | .clear l | .reverse l | .moveAssign l _ => (A.seq l).length + 1
  | _ => 0

omit [DecidableEq ν] in
/-- The lists that are alive, and one more. -/
theorem dead_of_update {l' : I} (h : Function.update A.alive l true l' = false) :
    l' ≠ l ∧ A.alive l' = false := by
  rw [Function.update_apply] at h
  split at h
  · cases h
  · next hne => exact ⟨hne, h⟩

theorem Refines.construct (hr : Refines s A) (h : SpecStep A (.construct l) A') {fuel : Nat} :
    ∃ s', Step fuel s (.construct l) s' ∧ Refines s' A' := by
  dsimp only [SpecStep, specStep] at h
  split at h
  · cases h
  · next hl =>
    cases h
    refine ⟨⟨init (.head (some l)) s.links, Function.update A.alive l true⟩, ?_, rfl,
      fun l' hl' => hr.dead l' (dead_of_update hl').2,
      hr.partition.init_head (h := some l) (hr.dead l (by simpa using hl))⟩
    rw [Step, Intrusive.step, hr.alive, if_neg hl]

theorem Refines.destroy (hr : Refines s A) (h : SpecStep A (.destroy l) A') {fuel : Nat}
    (hfuel : (A.seq l).length + 1 ≤ fuel) : ∃ s', Step fuel s (.destroy l) s' ∧ Refines s' A' := by
  dsimp only [SpecStep, specStep] at h
  split at h
  · next hl =>
    cases h
    obtain ⟨L, hL, hp'⟩ := hr.partition.clear (h := some l) hfuel
    refine ⟨⟨L, Function.update A.alive l false⟩, ?_, rfl, fun l' hl' => ?_,
      by rw [byHead_update]; exact hp'⟩
    · rw [Step, Intrusive.step, Intrusive.onList, hr.alive, if_pos hl, hL]
      rfl
    · show Function.update A.seq l [] l' = []
      change Function.update A.alive l false l' = false at hl'
      rw [Function.update_apply] at hl' ⊢
      split
      · rfl
      · next hne => rw [if_neg hne] at hl'; exact hr.dead l' hl'
  · cases h

theorem Refines.pushFront (hr : Refines s A) {n : ν} (h : SpecStep A (.pushFront l n) A')
    {fuel : Nat} : ∃ s', Step fuel s (.pushFront l n) s' ∧ Refines s' A' := by
  refine hr.onList (f := fun L => some (Intrusive.pushFront (some l) n L)) h (fun seq hs => ?_)
    fun seq l' hs hl hn => update_dead seq l' hs hl (remove_nil hn)
  cases hs
  refine ⟨_, rfl, ?_⟩
  rw [byHead_update, byHead_remove]
  exact hr.partition.pushFront (some l) n

theorem Refines.pushBack (hr : Refines s A) {n : ν} (h : SpecStep A (.pushBack l n) A')
    {fuel : Nat} : ∃ s', Step fuel s (.pushBack l n) s' ∧ Refines s' A' := by
  refine hr.onList (f := fun L => some (Intrusive.pushBack (some l) n L)) h (fun seq hs => ?_)
    fun seq l' hs hl hn => update_dead seq l' hs hl (remove_nil hn)
  cases hs
  refine ⟨_, rfl, ?_⟩
  rw [byHead_update, byHead_remove]
  exact hr.partition.pushBack (some l) n

theorem Refines.erase (hr : Refines s A) {n : ν} (h : SpecStep A (.erase l n) A') {fuel : Nat} :
    ∃ s', Step fuel s (.erase l n) s' ∧ Refines s' A' := by
  refine hr.onList (f := fun L => some (Intrusive.erase n L)) h (fun seq hs => ?_)
    fun seq l' hs _ hn => ?_
  · cases hs
    refine ⟨_, rfl, ?_⟩
    rw [byHead_remove]
    exact hr.partition.erase n
  · cases hs
    exact remove_nil hn

theorem Refines.popFront (hr : Refines s A) (h : SpecStep A (.popFront l) A') {fuel : Nat} :
    ∃ s', Step fuel s (.popFront l) s' ∧ Refines s' A' := by
  refine hr.onList (f := Intrusive.popFront (some l)) h (fun seq hs => ?_) fun seq l' hs hl hn => ?_
  · cases hseq : A.seq l with
    | nil => rw [if_pos hseq] at hs; cases hs
    | cons x xs =>
      rw [if_neg (by rw [hseq]; exact nofun)] at hs
      cases hs
      rw [byHead_update, hseq]
      exact hr.partition.popFront (h := some l) hseq
  · split at hs
    · cases hs
    · exact update_dead seq l' hs hl hn

theorem Refines.popBack (hr : Refines s A) (h : SpecStep A (.popBack l) A') {fuel : Nat} :
    ∃ s', Step fuel s (.popBack l) s' ∧ Refines s' A' := by
  refine hr.onList (f := Intrusive.popBack (some l)) h (fun seq hs => ?_) fun seq l' hs hl hn => ?_
  · rcases List.eq_nil_or_concat (A.seq l) with hseq | ⟨xs, x, hseq⟩
    · rw [if_pos hseq] at hs; cases hs
    · rw [List.concat_eq_append] at hseq
      rw [if_neg (by rw [hseq]; simp)] at hs
      cases hs
      rw [byHead_update, hseq, List.dropLast_concat]
      exact hr.partition.popBack (h := some l) hseq
  · split at hs
    · cases hs
    · exact update_dead seq l' hs hl hn

theorem Refines.clear (hr : Refines s A) (h : SpecStep A (.clear l) A') {fuel : Nat}
    (hfuel : (A.seq l).length + 1 ≤ fuel) : ∃ s', Step fuel s (.clear l) s' ∧ Refines s' A' := by
  refine hr.onList (f := Intrusive.clear fuel (some l)) h (fun seq hs => ?_) update_dead
  cases hs
  rw [byHead_update]
  exact hr.partition.clear (h := some l) hfuel

theorem Refines.reverse (hr : Refines s A) (h : SpecStep A (.reverse l) A') {fuel : Nat}
    (hfuel : (A.seq l).length + 1 ≤ fuel) : ∃ s', Step fuel s (.reverse l) s' ∧ Refines s' A' := by
  refine hr.onList (f := Intrusive.reverse fuel (some l) none) h (fun seq hs => ?_) update_dead
  cases hs
  rw [byHead_update]
  have hne : some l ≠ none := nofun
  exact hr.partition.reverse hne rfl hfuel

omit [DecidableEq ν] in
/-- Where one list takes the nodes of another one over, those without a list still have none. -/
theorem Refines.dead_takeOver (hr : Refines s A) {other l' : I} (hne : l' ≠ l)
    (hl' : A.alive l' = false) :
    Function.update (Function.update A.seq l (A.seq other)) other [] l' = [] := by
  rw [Function.update_apply]
  split
  · rfl
  · rw [Function.update_of_ne hne]
    exact hr.dead l' hl'

theorem Refines.moveConstruct (hr : Refines s A) {other : I}
    (h : SpecStep A (.moveConstruct l other) A') {fuel : Nat} :
    ∃ s', Step fuel s (.moveConstruct l other) s' ∧ Refines s' A' := by
  dsimp only [SpecStep, specStep] at h
  split at h
  · next hl =>
    obtain ⟨hl, ho⟩ := hl
    cases h
    have hlo : l ≠ other := fun he => by rw [he, ho] at hl; cases hl
    refine ⟨⟨Intrusive.moveConstruct (some l) (some other) s.links,
      Function.update A.alive l true⟩, ?_, rfl, fun l' hl' => ?_, ?_⟩
    · rw [Step, Intrusive.step, Intrusive.onList, hr.alive, if_neg (by rw [hl]; exact nofun),
        if_pos ho]
      rfl
    · exact hr.dead_takeOver (dead_of_update hl').1 (dead_of_update hl').2
    · rw [byHead_update, byHead_update]
      exact (hr.partition.init_head (h := some l) (hr.dead l hl)).takeOver
        (fun he => hlo (Option.some.inj he)) (hr.dead l hl)
  · cases h

/-- A list that is assigned to itself is left alone; another one is cleared first. -/
theorem Refines.moveAssign (hr : Refines s A) {other : I} (h : SpecStep A (.moveAssign l other) A')
    {fuel : Nat} (hfuel : (A.seq l).length + 1 ≤ fuel) :
    ∃ s', Step fuel s (.moveAssign l other) s' ∧ Refines s' A' := by
  dsimp only [SpecStep, specStep] at h
  split at h
  · next hl =>
    obtain ⟨hl, ho⟩ := hl
    cases h
    by_cases hlo : l = other
    · refine ⟨s, ?_, by rw [if_pos hlo]; exact hr⟩
      rw [Step, Intrusive.step, Intrusive.onList, hr.alive, if_pos ho, if_pos hl,
        Intrusive.moveAssign, if_pos (by rw [hlo]), Option.map_some, ← hr.alive]
    · have hne : some l ≠ some other := fun he => hlo (Option.some.inj he)
      obtain ⟨L, hL, hp'⟩ := hr.partition.clear (h := some l) hfuel
      have htake := hp'.takeOver hne (Function.update_self _ _ _)
      rw [Function.update_idem, Function.update_of_ne hne.symm] at htake
      refine ⟨⟨if isEmpty (some other) L then L
        else Intrusive.replaceEntry (.head (some other)) (.head (some l)) L, A.alive⟩, ?_, ?_⟩
      · rw [Step, Intrusive.step, Intrusive.onList, hr.alive, if_pos ho, if_pos hl,
          Intrusive.moveAssign, if_neg hne, hL]
        rfl
      · rw [if_neg hlo]
        refine ⟨rfl, fun l' hl' => ?_, by rw [byHead_update, byHead_update]; exact htake⟩
        exact hr.dead_takeOver (fun he => by rw [he, hl] at hl'; cases hl') hl'
  · cases h

/-- A step of a client is carried out, with enough fuel for its loops, and refined. -/
theorem Refines.step (hr : Refines s A) {a : Act I ν} (h : SpecStep A a A') {fuel : Nat}
    (hfuel : rounds A a ≤ fuel) : ∃ s', Step fuel s a s' ∧ Refines s' A' := by
  cases a with
  | construct l => exact hr.construct h
  | destroy l => exact hr.destroy h hfuel
  | pushFront l n => exact hr.pushFront h
  | pushBack l n => exact hr.pushBack h
  | erase l n => exact hr.erase h
  | popFront l => exact hr.popFront h
  | popBack l => exact hr.popBack h
  | clear l => exact hr.clear h hfuel
  | reverse l => exact hr.reverse h hfuel
  | moveConstruct l other => exact hr.moveConstruct h
  | moveAssign l other => exact hr.moveAssign h hfuel

/-- Any number of lists and nodes, every run: at every step the nodes and heads are in disjoint
rings, and each list has the sequence that the operations on sequences give. -/
theorem refines_along_list_runs {as : List (Act I ν)} (h : Run SpecStep Seqs.initial as A) :
    ∃ k, ∀ fuel ≥ k, ∃ s, Run (Step fuel) initial as s ∧ Refines s A := by
  induction h with
  | nil => exact ⟨0, fun fuel _ => ⟨_, .nil, .initial⟩⟩
  | @snoc as A A' a _ hstep ih =>
    obtain ⟨k, hk⟩ := ih
    refine ⟨max k (rounds A a), fun fuel hfuel => ?_⟩
    obtain ⟨s, hrun, hr⟩ := hk fuel (le_trans (Nat.le_max_left _ _) hfuel)
    obtain ⟨s', hs', hr'⟩ := hr.step hstep (le_trans (Nat.le_max_right _ _) hfuel)
    exact ⟨s', hrun.snoc hs', hr'⟩

end runs

/-- A node is pushed from one list to another one, which is reversed and then moved back. -/
theorem refines_push_and_move :
    ∃ (as : List (Act Bool Nat)) (A : Seqs Bool Nat), A.seq false = [1, 3] ∧ A.seq true = [] ∧
    ∃ k, ∀ fuel ≥ k, ∃ s, Run (Step fuel) initial as s ∧ Refines s A := by
  have hgo : ∀ {as : List (Act Bool Nat)} {A}, Run SpecStep Seqs.initial as A →
    ∀ (a : Act Bool Nat) (A'), specStep A a = some A' →
      Run SpecStep Seqs.initial (as ++ [a]) A' := fun h _ _ hs => h.snoc hs
  have h₁ : Run SpecStep (Seqs.initial : Seqs Bool Nat) [.construct false] _ :=
    .single (show specStep _ (.construct false) = some _ from rfl)
  have h₂ := hgo (hgo (hgo h₁ (.construct true) _ rfl) (.pushBack false 1) _ rfl)
    (.pushBack false 2) _ rfl
  have h₃ := hgo (hgo (hgo h₂ (.pushFront true 3) _ rfl) (.pushBack true 1) _ rfl)
    (.reverse true) _ rfl
  have h₄ := hgo h₃ (.moveAssign false true) _ rfl
  exact ⟨_, _, rfl, rfl, refines_along_list_runs h₄⟩

end Gpcl.Lists.Intrusive
