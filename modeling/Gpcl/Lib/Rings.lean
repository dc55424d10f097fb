import Mathlib.Data.List.Chain
import Mathlib.Data.List.Nodup
import Mathlib.Logic.Function.Basic
import Mathlib.Tactic.Common

/-! # Rings of doubly linked nodes

`L.Adj a b`: the links of `a` and `b` name each other. A chain of `L.Adj` is a piece of a
doubly linked structure, and `Ring L h xs` is one that goes from `h` through `xs` back to `h`.
Every edit is a number of `join`s: a ring is cut open at two places, and the pieces are joined
again with another piece in between or without one. -/
namespace Gpcl.Lib.Rings

variable {N : Type}

structure Links (N : Type) where
  next : N → N
  prev : N → N

def Links.Adj (L : Links N) (a b : N) : Prop := L.next a = b ∧ L.prev b = a

structure Ring (L : Links N) (h : N) (xs : List N) : Prop where
  chain : (h :: (xs ++ [h])).IsChain L.Adj
  nodup : (h :: xs).Nodup

/-- A chain depends on the `next` of all its nodes but the last and on the `prev` of all but the
first. -/
theorem chain_congr {L L' : Links N} :
    ∀ {xs : List N}, xs.IsChain L.Adj → (∀ x ∈ xs.dropLast, L'.next x = L.next x) →
    (∀ x ∈ xs.tail, L'.prev x = L.prev x) → xs.IsChain L'.Adj
  | [], _, _, _ => .nil
  | [a], _, _, _ => .singleton a
  | a :: b :: xs, h, hn, hp => by
    obtain ⟨hab, h⟩ := List.isChain_cons_cons.mp h
    refine List.isChain_cons_cons.mpr
      ⟨⟨?_, ?_⟩, chain_congr h (fun x hx => hn x ?_) (fun x hx => hp x ?_)⟩
    · rw [hn a (by simp)]; exact hab.1
    · rw [hp b (by simp)]; exact hab.2
    · rw [List.dropLast_cons_cons]; exact List.mem_cons_of_mem _ hx
    · exact List.mem_of_mem_tail hx

/-- The node before the rest of a ring, and the one after its beginning. -/
theorem cons_eq_concat (h : N) (xs : List N) : h :: xs = (h :: xs).dropLast ++ [xs.getLastD h] := by
  rcases List.eq_nil_or_concat xs with rfl | ⟨ys, p, rfl⟩
  · rfl
  · rw [List.concat_eq_append, List.getLastD_concat, ← List.cons_append, List.dropLast_concat]

theorem concat_eq_cons (h : N) (zs : List N) : zs ++ [h] = zs.headD h :: (zs ++ [h]).tail := by
  cases zs <;> rfl

theorem getLastD_mem (h : N) (xs : List N) : xs.getLastD h ∈ h :: xs := by
  rw [cons_eq_concat h xs]
  exact List.mem_append_right _ List.mem_cons_self

theorem headD_mem (h : N) (zs : List N) : zs.headD h ∈ h :: zs := by
  cases zs with
  | nil => exact List.mem_cons_self
  | cons z zs => exact List.mem_cons_of_mem _ List.mem_cons_self

namespace Ring
variable {L L' : Links N} {h : N} {xs ms zs : List N}

/-- A ring depends on the links of its nodes only. -/
theorem congr (hr : Ring L h xs) (hL : ∀ x ∈ h :: xs, L'.next x = L.next x ∧ L'.prev x = L.prev x) :
    Ring L' h xs := by
  refine ⟨chain_congr hr.chain (fun x hx => (hL x ?_).1) (fun x hx => (hL x ?_).2), hr.nodup⟩
  · rwa [← List.cons_append, List.dropLast_concat] at hx
  · simpa [or_comm] using hx

/-- The links across a place of a ring. -/
theorem adj (hr : Ring L h (xs ++ zs)) : L.Adj (xs.getLastD h) (zs.headD h) := by
  have hc := hr.chain
  rw [List.append_assoc, ← List.cons_append, cons_eq_concat h xs, concat_eq_cons h zs,
    List.append_assoc, List.singleton_append] at hc
  exact (List.isChain_append_cons_cons.mp hc).2.1

theorem left (hr : Ring L h (xs ++ zs)) : (h :: xs).IsChain L.Adj := by
  have hc := hr.chain
  rw [List.append_assoc, ← List.cons_append] at hc
  exact hc.left_of_append

theorem right (hr : Ring L h (xs ++ zs)) : (zs ++ [h]).IsChain L.Adj := by
  have hc := hr.chain
  rw [List.append_assoc, ← List.cons_append] at hc
  exact hc.right_of_append

/-- The ring opened at a place. -/
theorem opened (hr : Ring L h (xs ++ zs)) : (zs ++ h :: xs).IsChain L.Adj :=
  List.isChain_split.mpr ⟨hr.right, hr.left⟩

/-- A walk that comes to `h` is determined by its start. -/
theorem walk_unique :
    ∀ {xs ys : List N} {a : N}, (a :: (xs ++ [h])).IsChain L.Adj →
    (a :: (ys ++ [h])).IsChain L.Adj →
    h ∉ xs → h ∉ ys → xs = ys
  | [], [], _, _, _, _, _ => rfl
  | [], y :: ys, a, hx, hy, _, hn => by
    have h₁ : L.next a = h := (List.isChain_cons_cons.mp hx).1.1
    have h₂ : L.next a = y := (List.isChain_cons_cons.mp hy).1.1
    exact absurd (h₁.symm.trans h₂ ▸ List.mem_cons_self) hn
  | x :: xs, [], a, hx, hy, hn, _ => by
    have h₁ : L.next a = x := (List.isChain_cons_cons.mp hx).1.1
    have h₂ : L.next a = h := (List.isChain_cons_cons.mp hy).1.1
    exact absurd (h₂.symm.trans h₁ ▸ List.mem_cons_self) hn
  | x :: xs, y :: ys, a, hx, hy, hn, hn' => by
    obtain ⟨hax, hx⟩ := List.isChain_cons_cons.mp hx
    obtain ⟨hay, hy⟩ := List.isChain_cons_cons.mp hy
    obtain rfl : x = y := hax.1.symm.trans hay.1
    rw [walk_unique hx hy (fun hm => hn (List.mem_cons_of_mem _ hm)) fun hm =>
      hn' (List.mem_cons_of_mem _ hm)]

theorem unique {ys : List N} (hx : Ring L h xs) (hy : Ring L h ys) : xs = ys :=
  walk_unique hx.chain hy.chain (List.nodup_cons.mp hx.nodup).1 (List.nodup_cons.mp hy.nodup).1

end Ring

section writes
variable [DecidableEq N]

def Links.setNext (L : Links N) (a b : N) : Links N := { L with next := Function.update L.next a b }

def Links.setPrev (L : Links N) (a b : N) : Links N := { L with prev := Function.update L.prev a b }

/-- The two writes that put `b` behind `a`. -/
def Links.join (L : Links N) (a b : N) : Links N where
  next := Function.update L.next a b
  prev := Function.update L.prev b a

variable {L L' : Links N} {h : N} {xs ms zs : List N}

theorem Links.join_next_of_ne {a b x : N} (hx : x ≠ a) : (L.join a b).next x = L.next x :=
  Function.update_of_ne hx _ _

theorem Links.join_prev_of_ne {a b x : N} (hx : x ≠ b) : (L.join a b).prev x = L.prev x :=
  Function.update_of_ne hx _ _

theorem Links.join_adj (a b : N) : (L.join a b).Adj a b :=
  ⟨Function.update_self _ _ _, Function.update_self _ _ _⟩

theorem Links.join_comm {a b c d : N} (hac : a ≠ c) (hbd : b ≠ d) :
    (L.join a b).join c d = (L.join c d).join a b := by
  unfold Links.join
  rw [Function.update_comm hac, Function.update_comm hbd]

/-- What is adjacent already is not changed. -/
theorem Links.join_of_adj {a b : N} (h : L.Adj a b) : L.join a b = L := by
  unfold Links.join
  rw [← h.1, Function.update_eq_self, h.1, ← h.2, Function.update_eq_self]

/-- Links that are written again: `b` was behind `o`, then comes between `p` and `q`, and `o` is
alone. -/
theorem Links.join_join_join {o b p q : N} (hob : o ≠ b) (hop : o ≠ p) (hqb : q ≠ b) :
    (((L.join o b).join b q).join p b).join o o = ((L.join b q).join p b).join o o := by
  unfold Links.join
  dsimp only
  rw [Function.update_comm hob, Function.update_comm hop, Function.update_idem,
    Function.update_comm hqb.symm, Function.update_idem]

/-- Two chains are joined. -/
theorem chain_join {us vs : List N} {p q : N} (hu : (us ++ [p]).IsChain L.Adj)
    (hv : (q :: vs).IsChain L.Adj) (hd : (us ++ p :: q :: vs).dropLast.Nodup)
    (ht : (us ++ p :: q :: vs).tail.Nodup) :
    (us ++ p :: q :: vs).IsChain (L.join p q).Adj := by
  have hp : ∀ x, x ∈ us ∨ x ∈ (q :: vs).dropLast → x ≠ p := by
    rw [List.dropLast_append_of_ne_nil (List.cons_ne_nil _ _), List.dropLast_cons_cons] at hd
    have h₁ := (List.nodup_middle.mp hd)
    rintro x hx rfl
    exact (List.nodup_cons.mp h₁).1 (List.mem_append.mpr hx)
  have hq : ∀ x, x ∈ (us ++ [p]).tail ∨ x ∈ vs → x ≠ q := by
    have he : us ++ p :: q :: vs = (us ++ [p]) ++ q :: vs := by simp
    rw [he, List.tail_append_of_ne_nil (by simp)] at ht
    have h₁ := (List.nodup_middle.mp ht)
    rintro x hx rfl
    exact (List.nodup_cons.mp h₁).1 (List.mem_append.mpr hx)
  refine List.isChain_append_cons_cons.mpr
    ⟨chain_congr hu (fun x hx => ?_) (fun x hx => ?_), L.join_adj p q,
    chain_congr hv (fun x hx => ?_) (fun x hx => ?_)⟩
  · rw [List.dropLast_concat] at hx
    exact L.join_next_of_ne (hp x (.inl hx))
  · exact L.join_prev_of_ne (hq x (.inl hx))
  · exact L.join_next_of_ne (hp x (.inr hx))
  · exact L.join_prev_of_ne (hq x (.inr hx))

/-- The two ends of a chain are joined, and make a ring. -/
theorem Ring.close (hx : (h :: xs).IsChain L.Adj) (hz : (zs ++ [h]).IsChain L.Adj)
    (hd : (h :: (xs ++ zs)).Nodup) :
    Ring (L.join (xs.getLastD h) (zs.headD h)) h (xs ++ zs) := by
  refine ⟨?_, hd⟩
  have he :
      h :: (xs ++ zs ++ [h]) =
        (h :: xs).dropLast ++ xs.getLastD h :: zs.headD h :: (zs ++ [h]).tail := by
    rw [← concat_eq_cons, List.append_assoc, ← List.cons_append]
    conv => lhs; rw [cons_eq_concat h xs, List.append_assoc, List.singleton_append]
  rw [he]
  refine chain_join (cons_eq_concat h xs ▸ hx) (concat_eq_cons h zs ▸ hz) ?_ ?_
  · rw [← he, ← List.cons_append, List.dropLast_concat]
    exact hd
  · rw [← he, List.tail_cons]
    exact (List.perm_append_singleton h (xs ++ zs)).nodup_iff.mpr hd

/-- A piece is cut out of a ring. -/
theorem Ring.cut (hr : Ring L h (xs ++ (ms ++ zs))) :
    Ring (L.join (xs.getLastD h) (zs.headD h)) h (xs ++ zs) := by
  have hz : Ring L h ((xs ++ ms) ++ zs) := by rw [List.append_assoc]; exact hr
  refine Ring.close hr.left hz.right (hr.nodup.sublist ?_)
  exact ((List.sublist_append_right ms zs).append_left xs).cons_cons h

/-- A piece is put into a ring. -/
theorem Ring.paste (hr : Ring L h (xs ++ zs)) {m : N} (hm : (m :: ms).IsChain L.Adj)
    (hd : (h :: (xs ++ (m :: ms ++ zs))).Nodup) :
    Ring ((L.join (xs.getLastD h) m).join (ms.getLastD m) (zs.headD h)) h
      (xs ++ (m :: ms ++ zs)) := by
  have hd₁ : (h :: (xs ++ m :: ms)).Nodup :=
    hd.sublist (((List.sublist_append_left (m :: ms) zs).append_left xs).cons_cons h)
  have hleft : (h :: (xs ++ m :: ms)).IsChain (L.join (xs.getLastD h) m).Adj := by
    have he : h :: (xs ++ m :: ms) = (h :: xs).dropLast ++ xs.getLastD h :: m :: ms := by
      rw [← List.cons_append]
      conv => lhs; rw [cons_eq_concat h xs, List.append_assoc, List.singleton_append]
    rw [he]
    refine chain_join (cons_eq_concat h xs ▸ hr.left) hm (hd₁.sublist ?_) (hd₁.sublist ?_)
    · rw [← he]; exact List.dropLast_sublist _
    · rw [← he]; exact List.tail_sublist _
  have hdisj : List.Disjoint (h :: xs) (m :: ms ++ zs) := by
    rw [← List.cons_append] at hd
    exact List.disjoint_of_nodup_append hd
  have hright : (zs ++ [h]).IsChain (L.join (xs.getLastD h) m).Adj := by
    refine chain_congr hr.right (fun x hx => L.join_next_of_ne ?_)
      (fun x hx => L.join_prev_of_ne ?_)
    · rw [List.dropLast_concat] at hx
      rintro rfl
      exact hdisj (getLastD_mem h xs) (List.mem_append_right _ hx)
    · rintro rfl
      rcases List.mem_append.mp (List.mem_of_mem_tail hx) with hx | hx
      · have hmz := (List.nodup_append.mp (List.nodup_cons.mp hd).2).2.1
        exact (List.nodup_cons.mp hmz).1 (List.mem_append_right _ hx)
      · exact hdisj (List.mem_singleton.mp hx ▸ List.mem_cons_self) List.mem_cons_self
  have hlast : (xs ++ m :: ms).getLastD h = ms.getLastD m := by
    rw [cons_eq_concat m ms, ← List.append_assoc, List.getLastD_concat]
  have hc := Ring.close hleft hright (by rw [List.append_assoc]; exact hd)
  rw [hlast, List.append_assoc] at hc
  exact hc

/-- A node alone. -/
theorem Ring.alone (a : N) : Ring (L.join a a) a [] :=
  ⟨List.isChain_pair.mpr (L.join_adj a a), List.nodup_singleton a⟩

/-- What `join` leaves as it is. -/
theorem Ring.join_of_not_mem (hr : Ring L h xs) {a b : N} (ha : a ∉ h :: xs) (hb : b ∉ h :: xs) :
    Ring (L.join a b) h xs :=
  hr.congr fun _ hx =>
    ⟨L.join_next_of_ne fun he => ha (he ▸ hx), L.join_prev_of_ne fun he => hb (he ▸ hx)⟩

end writes

/-! ## Families of rings -/

variable {H ν : Type}

/-- The nodes of a family: the heads of the rings, and the others. -/
inductive Node (H ν : Type)
  | head (h : H)
  | node (n : ν)
deriving DecidableEq

/-- A link read as one to a node that is not a head. -/
def Node.element : Node H ν → Option ν
  | .node n => some n
  | .head _ => none

/-- The nodes of the ring of a head. -/
def cycle (h : H) (xs : List ν) : List (Node H ν) := .head h :: xs.map .node

/-- The last node behind a head, or the head. -/
def lastOf (h : H) (xs : List ν) : Node H ν := (xs.map .node).getLastD (.head h)

/-- The first one before it. -/
def firstOf (h : H) (zs : List ν) : Node H ν := (zs.map .node).headD (.head h)

theorem node_mem_cycle {h : H} {xs : List ν} {n : ν} : .node n ∈ cycle h xs ↔ n ∈ xs := by
  simp [cycle]

theorem head_mem_cycle {h h' : H} {xs : List ν} : .head h' ∈ cycle h xs ↔ h' = h := by
  simp [cycle]

theorem lastOf_concat (h : H) (xs : List ν) (n : ν) : lastOf h (xs ++ [n]) = .node n := by
  rw [lastOf, List.map_append, List.map_singleton, List.getLastD_concat]

theorem lastOf_cons (h : H) (n : ν) (ms : List ν) :
    lastOf h (n :: ms) = (ms.map .node).getLastD (.node n) := by
  rw [lastOf, List.map_cons, List.getLastD_cons]

theorem exists_last (h : H) (n : ν) (ms : List ν) :
    ∃ m ∈ n :: ms, lastOf h (n :: ms) = .node m := by
  have hmem := getLastD_mem (Node.node n : Node H ν) (ms.map .node)
  rw [← List.map_cons] at hmem
  obtain ⟨m, hm, he⟩ := List.mem_map.mp hmem
  exact ⟨m, hm, (lastOf_cons h n ms).trans he.symm⟩

theorem lastOf_mem (h : H) (xs zs : List ν) : lastOf h xs ∈ cycle h (xs ++ zs) := by
  unfold cycle
  rw [List.map_append, ← List.cons_append]
  exact List.mem_append_left _ (getLastD_mem _ _)

theorem firstOf_mem (h : H) (xs zs : List ν) : firstOf h zs ∈ cycle h (xs ++ zs) := by
  unfold cycle
  rw [List.map_append]
  rcases List.mem_cons.mp (headD_mem (Node.head h) (zs.map Node.node)) with he | hm
  · rw [firstOf, he]; exact List.mem_cons_self
  · exact List.mem_cons_of_mem _ (List.mem_append_right _ hm)

/-- Each head has a ring with its sequence, and no node is in two of them. -/
structure Family (L : Links (Node H ν)) (seq : H → List ν) : Prop where
  ring : ∀ h, Ring L (.head h) ((seq h).map .node)
  unique : ∀ h h' n, n ∈ seq h → n ∈ seq h' → h = h'

namespace Family
variable {L : Links (Node H ν)} {seq : H → List ν} {n : ν} {h h' : H} {xs ms zs : List ν}

theorem nodup (hf : Family L seq) (h : H) : (seq h).Nodup :=
  (List.nodup_cons.mp (hf.ring h).nodup).2.of_map _

/-- The ring of one head has no node of another one. -/
theorem not_mem (hf : Family L seq) (hh : h' ≠ h) {a : Node H ν} (ha : a ∈ cycle h (seq h)) :
    a ∉ cycle h' (seq h') := by
  intro ha'
  cases a with
  | head g => exact hh ((head_mem_cycle.mp ha').symm.trans (head_mem_cycle.mp ha))
  | node n => exact hh (hf.unique h' h n (node_mem_cycle.mp ha') (node_mem_cycle.mp ha))

/-- Links of nodes in no ring do not matter. -/
theorem congr {L' : Links (Node H ν)} (hf : Family L seq)
    (hL : ∀ g, ∀ a ∈ cycle g (seq g), L'.next a = L.next a ∧ L'.prev a = L.prev a) :
    Family L' seq :=
  ⟨fun g => (hf.ring g).congr (hL g), hf.unique⟩

/-- The nodes on both sides of a place. -/
theorem adj (hf : Family L seq) (hseq : seq h = xs ++ zs) : L.Adj (lastOf h xs) (firstOf h zs) := by
  have hr := hf.ring h
  rw [hseq, List.map_append] at hr
  exact hr.adj

theorem neighbours (hf : Family L seq) (hseq : seq h = xs ++ n :: zs) :
    L.prev (.node n) = lastOf h xs ∧ L.next (.node n) = firstOf h zs := by
  have hafter := hf.adj (show seq h = (xs ++ [n]) ++ zs by simpa using hseq)
  rw [lastOf_concat] at hafter
  exact ⟨(hf.adj hseq).2, hafter.1⟩

/-- The nodes from a place on are not before it. -/
theorem lastOf_ne (hf : Family L seq) (hseq : seq h = xs ++ zs) (hn : n ∈ zs) :
    lastOf h xs ≠ .node n := by
  intro he
  have hm := lastOf_mem h xs []
  rw [he, List.append_nil, node_mem_cycle] at hm
  have hd := hf.nodup h
  rw [hseq] at hd
  exact List.disjoint_of_nodup_append hd hm hn

/-- No node of a ring is linked to itself. -/
theorem next_ne (hf : Family L seq) (hn : n ∈ seq h) : L.next (.node n) ≠ .node n := by
  obtain ⟨xs, zs, hseq⟩ := List.append_of_mem hn
  have hd := hf.nodup h
  rw [hseq] at hd
  have hnz : n ∉ zs := (List.nodup_cons.mp (List.nodup_append.mp hd).2.1).1
  rw [(hf.neighbours hseq).2]
  intro he
  have hm := firstOf_mem h [] zs
  rw [he, List.nil_append, node_mem_cycle] at hm
  exact hnz hm

/-- The two links of a node are those of its neighbours. -/
theorem inverse (hf : Family L seq) {a : Node H ν} (ha : a ∈ cycle h (seq h)) :
    L.prev (L.next a) = a ∧ L.next (L.prev a) = a := by
  have hplace : ∀ {ys ws : List ν}, seq h = ys ++ ws → L.prev (firstOf h ws) = lastOf h ys ∧
      L.next (lastOf h ys) = firstOf h ws :=
    fun hseq => ⟨(hf.adj hseq).2, (hf.adj hseq).1⟩
  cases a with
  | head g =>
    obtain rfl := head_mem_cycle.mp ha
    obtain ⟨hprev, hnext⟩ := hplace (List.nil_append (seq g)).symm
    obtain ⟨hprev', hnext'⟩ := hplace (List.append_nil (seq g)).symm
    exact ⟨(congrArg L.prev hnext).trans hprev, (congrArg L.next hprev').trans hnext'⟩
  | node m =>
    obtain ⟨ys, ws, hseq⟩ := List.append_of_mem (node_mem_cycle.mp ha)
    obtain ⟨hprev, hnext⟩ := hf.neighbours hseq
    obtain ⟨hprev', _⟩ :=
      hplace (show seq h = (ys ++ [m]) ++ ws by rw [hseq, List.append_assoc, List.singleton_append])
    rw [lastOf_concat] at hprev'
    exact ⟨(congrArg L.prev hnext).trans hprev', (congrArg L.next hprev).trans (hplace hseq).2⟩

variable [DecidableEq H] [DecidableEq ν]

theorem join_of_not_mem (hf : Family L seq) {a b : Node H ν} (ha : ∀ g, a ∉ cycle g (seq g))
    (hb : ∀ g, b ∉ cycle g (seq g)) :
    Family (L.join a b) seq :=
  ⟨fun g => (hf.ring g).join_of_not_mem (ha g) (hb g), hf.unique⟩

/-- An empty ring is initialised again. -/
theorem isolate (hf : Family L seq) (hseq : seq h = []) :
    Family (L.join (.head h) (.head h)) seq := by
  refine ⟨fun g => ?_, hf.unique⟩
  by_cases hg : g = h
  · rw [hg, hseq]; exact Ring.alone _
  · have hnot : Node.head h ∉ cycle g (seq g) := fun hm => hg (head_mem_cycle.mp hm).symm
    exact (hf.ring g).join_of_not_mem hnot hnot

/-- A piece leaves its ring; its own links stay. -/
theorem cut (hf : Family L seq) (hseq : seq h = xs ++ (ms ++ zs)) :
    Family (L.join (lastOf h xs) (firstOf h zs)) (Function.update seq h (xs ++ zs)) := by
  have hr : Ring L (.head h) (xs.map .node ++ (ms.map .node ++ zs.map .node)) := by
    simpa [hseq] using hf.ring h
  have hlast : lastOf h xs ∈ cycle h (seq h) := hseq ▸ lastOf_mem h xs _
  have hfirst : firstOf h zs ∈ cycle h (seq h) := by
    rw [hseq, ← List.append_assoc]
    exact firstOf_mem h _ zs
  refine ⟨fun g => ?_, fun g g' m hm hm' => ?_⟩
  · by_cases hg : g = h
    · rw [hg, Function.update_self, List.map_append]
      exact hr.cut
    · rw [Function.update_of_ne hg]
      exact (hf.ring g).join_of_not_mem (hf.not_mem hg hlast) (hf.not_mem hg hfirst)
  · have hback : ∀ g, m ∈ Function.update seq h (xs ++ zs) g → m ∈ seq g := fun g hm => by
      rw [Function.update_apply] at hm
      split at hm
      · next he =>
        rw [he, hseq]
        exact ((List.sublist_append_right ms zs).append_left xs).subset hm
      · exact hm
    exact hf.unique g g' m (hback g hm) (hback g' hm')

/-- A piece whose nodes are in no ring is put into one. -/
theorem paste (hf : Family L seq) (hseq : seq h = xs ++ zs)
    (hm : ((n :: ms).map Node.node).IsChain L.Adj) (hnew : ∀ m ∈ n :: ms, ∀ g, m ∉ seq g)
    (hd : (n :: ms).Nodup) :
    Family ((L.join (lastOf h xs) (.node n)).join ((ms.map .node).getLastD (.node n))
      (firstOf h zs))
      (Function.update seq h (xs ++ (n :: ms ++ zs))) := by
  have hr : Ring L (.head h) (xs.map .node ++ zs.map .node) := by simpa [hseq] using hf.ring h
  have hlast : lastOf h xs ∈ cycle h (seq h) := hseq ▸ lastOf_mem h xs _
  have hfirst : firstOf h zs ∈ cycle h (seq h) := hseq ▸ firstOf_mem h xs zs
  have hnot : ∀ m ∈ n :: ms, ∀ g, Node.node m ∉ cycle g (seq g) :=
    fun m hm g hm' => hnew m hm g (node_mem_cycle.mp hm')
  have hnodup : (Node.head h :: (xs.map .node ++ ((n :: ms).map .node ++ zs.map .node))).Nodup := by
    have hperm : (Node.head h :: (xs.map .node ++ ((n :: ms).map .node ++ zs.map .node))).Perm
        ((n :: ms).map .node ++ cycle h (seq h)) := by
      unfold cycle
      rw [hseq, List.map_append, ← List.cons_append, ← List.cons_append]
      exact List.perm_append_comm_assoc _ _ _
    refine hperm.nodup_iff.mpr
      (List.nodup_append'.mpr ⟨hd.map fun _ _ he => Node.node.inj he, (hf.ring h).nodup,
        fun a ha ha' => ?_⟩)
    obtain ⟨m, hm, rfl⟩ := List.mem_map.mp ha
    exact hnot m hm h ha'
  refine ⟨fun g => ?_, fun g g' m hg hg' => ?_⟩
  · by_cases hg : g = h
    · rw [hg, Function.update_self, List.map_append, List.map_append]
      exact hr.paste hm hnodup
    · rw [Function.update_of_ne hg]
      obtain ⟨m, hm, he⟩ := exists_last h n ms
      rw [lastOf_cons h] at he
      rw [he]
      exact ((hf.ring g).join_of_not_mem (hf.not_mem hg hlast)
        (hnot n List.mem_cons_self g)).join_of_not_mem (hnot m hm g)
        (hf.not_mem hg hfirst)
  · have hback : ∀ g, m ∈ Function.update seq h (xs ++ (n :: ms ++ zs)) g → (g = h ∧ m ∈ n :: ms) ∨
        m ∈ seq g := fun g hm => by
      rw [Function.update_apply] at hm
      split at hm
      · next he =>
        rw [he, hseq]
        simp only [List.mem_append] at hm ⊢
        tauto
      · exact .inr hm
    rcases hback g hg with ⟨hg, hn⟩ | hg
    · rcases hback g' hg' with ⟨hg', _⟩ | hg'
      · rw [hg, hg']
      · exact absurd hg' (hnew m hn g')
    · rcases hback g' hg' with ⟨_, hn⟩ | hg'
      · exact absurd hg (hnew m hn g)
      · exact hf.unique g g' m hg hg'

/-- A node is put into a ring. -/
theorem paste_one (hf : Family L seq) (hseq : seq h = xs ++ zs) (hnew : ∀ g, n ∉ seq g) :
    Family ((L.join (lastOf h xs) (.node n)).join (.node n) (firstOf h zs))
      (Function.update seq h (xs ++ n :: zs)) :=
  hf.paste hseq (.singleton _) (fun _ hm g => List.mem_singleton.mp hm ▸ hnew g)
    (List.nodup_singleton n)

/-- A piece is cut out of one ring and put into one, the same or another. -/
theorem splice (hf : Family L seq) {us ws : List ν} (hcut : seq h' = us ++ (n :: ms ++ ws))
    (hpaste : Function.update seq h' (us ++ ws) h = xs ++ zs) :
    Family (((L.join (lastOf h' us) (firstOf h' ws)).join (lastOf h xs) (.node n)).join
      ((ms.map .node).getLastD (.node n))
      (firstOf h zs)) (Function.update (Function.update seq h' (us ++ ws)) h
        (xs ++ (n :: ms ++ zs))) := by
  have hd : (us ++ (n :: ms ++ ws)).Nodup := hcut ▸ hf.nodup h'
  have hnu : ∀ m ∈ n :: ms, m ∉ us :=
    fun m hm hu => List.disjoint_of_nodup_append hd hu (List.mem_append_left _ hm)
  have hnw : ∀ m ∈ n :: ms, m ∉ ws := fun m hm hw =>
    List.disjoint_of_nodup_append (List.nodup_append.mp hd).2.1 hm hw
  have hchain : ((n :: ms).map Node.node).IsChain (L.join (lastOf h' us) (firstOf h' ws)).Adj := by
    have hc : ((n :: ms).map Node.node).IsChain L.Adj := by
      have hr := (hf.ring h').chain
      rw [hcut, List.map_append, List.map_append] at hr
      refine hr.infix ⟨Node.head h' :: us.map .node, ws.map .node ++ [.head h'], by simp⟩
    refine chain_congr hc (fun x hx => L.join_next_of_ne fun he => ?_)
      (fun x hx => L.join_prev_of_ne fun he => ?_)
    · obtain ⟨m, hm, rfl⟩ := List.mem_map.mp ((List.dropLast_sublist _).subset hx)
      have hl := lastOf_mem h' us []
      rw [← he, List.append_nil, node_mem_cycle] at hl
      exact hnu m hm hl
    · obtain ⟨m, hm, rfl⟩ := List.mem_map.mp (List.mem_of_mem_tail hx)
      have hl := firstOf_mem h' [] ws
      rw [← he, List.nil_append, node_mem_cycle] at hl
      exact hnw m hm hl
  refine (hf.cut hcut).paste hpaste hchain (fun m hm g hg => ?_)
    ((List.nodup_append.mp (List.nodup_append.mp hd).2.1).1)
  rw [Function.update_apply] at hg
  split at hg
  · exact (List.mem_append.mp hg).elim (hnu m hm) (hnw m hm)
  · next hne =>
    refine hne (hf.unique g h' m hg ?_)
    rw [hcut]
    exact List.mem_append_right _ (List.mem_append_left _ hm)

end Family

/-- A family with one more head, for a list that is empty between the operations. -/
def byHead {I : Type} (seq : I → List ν) : Option I → List ν
  | some l => seq l
  | none => []

theorem byHead_update {I : Type} [DecidableEq I] (seq : I → List ν) (l : I) (xs : List ν) :
    byHead (Function.update seq l xs) = Function.update (byHead seq) (some l) xs := by
  funext h
  cases h with
  | none => rfl
  | some l' => simp [byHead, Function.update_apply]

end Gpcl.Lib.Rings
