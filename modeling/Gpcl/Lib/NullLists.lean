import Gpcl.Lib.Rings

/-! # Doubly linked lists that end at a null node

The nodes of a list name each other, the first one names a null node as the one before it, and so
does the last one as the one behind it. Any number of lists share the null node, so what its own
links are says nothing. The head of a list is kept elsewhere. -/
namespace Gpcl.Lib.NullLists
open Lib.Rings

variable {N : Type} {L L' : Links N} {null prev head x : N} {l : List N}

/-- The list from `head` on, with `prev` before it. -/
def Linked (L : Links N) (null : N) : N → N → List N → Prop
  | _, head, [] => head = null
  | prev, head, x :: l => head = x ∧ x ≠ null ∧ L.prev x = prev ∧ Linked L null x (L.next x) l

theorem Linked.congr : ∀ {l : List N} {prev head : N}, Linked L null prev head l →
    (∀ x ∈ l, L'.next x = L.next x ∧ L'.prev x = L.prev x) → Linked L' null prev head l
  | [], _, _, h, _ => h
  | x :: l, _, _, ⟨hhead, hx, hprev, h⟩, hsame => by
    obtain ⟨hnext', hprev'⟩ := hsame x List.mem_cons_self
    refine ⟨hhead, hx, hprev'.trans hprev, ?_⟩
    rw [hnext']
    exact h.congr fun y hy => hsame y (List.mem_cons_of_mem _ hy)

theorem Linked.null_notMem : ∀ {l : List N} {prev head : N}, Linked L null prev head l → null ∉ l
  | [], _, _, _ => List.not_mem_nil
  | _ :: _, _, _, ⟨_, hx, _, h⟩ => List.not_mem_cons_of_ne_of_not_mem hx.symm h.null_notMem

theorem Linked.head_mem (h : Linked L null prev head l) (hne : head ≠ null) : head ∈ l := by
  cases l with
  | nil => exact absurd h hne
  | cons x l => exact h.1 ▸ List.mem_cons_self

theorem Linked.nil_iff (h : Linked L null prev head l) : head = null ↔ l = [] := by
  cases l with
  | nil => exact iff_of_true h rfl
  | cons x l => exact iff_of_false (h.1 ▸ h.2.1) (List.cons_ne_nil x l)

/-- What is behind a node of a list is null or in the list. -/
theorem Linked.next_mem :
    ∀ {l : List N} {prev head : N}, Linked L null prev head l → x ∈ l → L.next x = null ∨
    L.next x ∈ l
  | y :: l, _, _, ⟨_, _, _, h⟩, hx => by
    obtain rfl | hx := List.mem_cons.mp hx
    · by_cases hnull : L.next x = null
      · exact .inl hnull
      · exact .inr (List.mem_cons_of_mem _ (h.head_mem hnull))
    · exact (h.next_mem hx).imp_right (List.mem_cons_of_mem _)

/-- What is before a node of a list is what is before the list, or in it. -/
theorem Linked.prev_mem :
    ∀ {l : List N} {prev head : N}, Linked L null prev head l → x ∈ l → L.prev x = prev ∨
    L.prev x ∈ l
  | y :: l, _, _, ⟨_, _, hprev, h⟩, hx => by
    obtain rfl | hx := List.mem_cons.mp hx
    · exact .inl hprev
    · obtain heq | hmem := h.prev_mem hx
      · exact .inr (heq ▸ List.mem_cons_self)
      · exact .inr (List.mem_cons_of_mem _ hmem)

/-- A new first node. -/
theorem Linked.push (h : Linked L null null head l) (hx : x ≠ null) (hnodup : l.Nodup)
    (hnext : L'.next x = head) (hprev : L'.prev x = null) (hhead : head ≠ null → L'.prev head = x)
    (hnext' : ∀ y ∈ l, L'.next y = L.next y)
    (hprev' : ∀ y ∈ l, y ≠ head → L'.prev y = L.prev y) : Linked L' null null x (x :: l) := by
  refine ⟨rfl, hx, hprev, ?_⟩
  rw [hnext]
  cases l with
  | nil => exact h
  | cons y l =>
    obtain ⟨rfl, hy, -, h⟩ := h
    refine ⟨rfl, hy, hhead hy, ?_⟩
    rw [hnext' head List.mem_cons_self]
    refine h.congr fun z hz =>
      ⟨hnext' z (List.mem_cons_of_mem _ hz), hprev' z (List.mem_cons_of_mem _ hz) ?_⟩
    rintro rfl
    exact (List.nodup_cons.mp hnodup).1 hz

/-- A node taken out: the nodes beside it name each other. -/
theorem Linked.erase [DecidableEq N] :
    ∀ {l : List N} {prev head : N}, Linked L null prev head l → (prev :: l).Nodup → x ∈ l →
    (∀ y ∈ l, y ≠ x → L'.next y = if y = L.prev x then L.next x else L.next y) →
    (∀ y ∈ l, y ≠ x → L'.prev y = if y = L.next x then L.prev x else L.prev y) →
    Linked L' null prev (if head = x then L.next x else head) (l.erase x)
  | y :: l, prev, head, ⟨hhead, hy, hprev, h⟩, hnodup, hx, hnext', hprev' => by
    subst hhead
    obtain ⟨hnotin, hnodup⟩ := List.nodup_cons.mp hnodup
    obtain ⟨hyl, hnodupl⟩ := List.nodup_cons.mp hnodup
    by_cases hyx : head = x
    · -- the first node: the one behind it is the first then
      subst hyx
      rw [if_pos rfl, List.erase_cons_head]
      cases l with
      | nil => exact h
      | cons z l =>
        obtain ⟨hnext, hz, -, h⟩ := h
        have hzy : z ≠ head := fun heq => hyl (heq ▸ List.mem_cons_self)
        have hkept : ∀ u ∈ z :: l, L'.next u = L.next u := by
          intro u hu
          rw [hnext' u (List.mem_cons_of_mem _ hu) fun heq => hyl (heq ▸ hu), if_neg]
          rw [hprev]
          rintro rfl
          exact hnotin (List.mem_cons_of_mem _ hu)
        refine ⟨hnext, hz, ?_, ?_⟩
        · rw [hprev' z (by simp) hzy, if_pos hnext.symm, hprev]
        · rw [hkept z List.mem_cons_self]
          refine h.congr fun u hu => ⟨hkept u (List.mem_cons_of_mem _ hu), ?_⟩
          rw [hprev' u (by simp [hu]) fun heq => hyl (heq ▸ List.mem_cons_of_mem _ hu), if_neg]
          rw [hnext]
          rintro rfl
          exact (List.nodup_cons.mp hnodupl).1 hu
    · have hxl : x ∈ l := (List.mem_cons.mp hx).resolve_left fun heq => hyx heq.symm
      rw [if_neg hyx, List.erase_cons_tail (by simpa using hyx)]
      have hbehind : L.next x ≠ head := by
        obtain heq | hmem := h.next_mem hxl
        · rw [heq]
          exact hy.symm
        · exact fun heq => hyl (heq ▸ hmem)
      refine ⟨rfl, hy, ?_, ?_⟩
      · rw [hprev' head List.mem_cons_self hyx, if_neg hbehind.symm, hprev]
      · have hstep := h.erase hnodup hxl (fun u hu hne => hnext' u (List.mem_cons_of_mem _ hu) hne)
          fun u hu hne => hprev' u (List.mem_cons_of_mem _ hu) hne
        have hfirst : L'.next head = if L.next head = x then L.next x else L.next head := by
          rw [hnext' head List.mem_cons_self hyx]
          by_cases hnx : L.next head = x
          · rw [if_pos hnx, if_pos]
            cases l with
            | nil => exact absurd hxl List.not_mem_nil
            | cons z l =>
              obtain ⟨hz, -, hprevz, -⟩ := h
              rw [← hnx, hz]
              exact hprevz.symm
          · rw [if_neg hnx, if_neg]
            -- otherwise the node before it is in the rest of the list
            intro heq
            cases l with
            | nil => exact absurd hxl List.not_mem_nil
            | cons z l =>
              obtain ⟨hz, -, hprevz, h⟩ := h
              have hxz : x ≠ z := fun hxz => hnx (hz.trans hxz.symm)
              have hxl := (List.mem_cons.mp hxl).resolve_left hxz
              obtain hmem | hmem := h.prev_mem hxl
              · exact hyl (heq ▸ hmem ▸ List.mem_cons_self)
              · exact hyl (heq ▸ List.mem_cons_of_mem _ hmem)
        rw [hfirst]
        exact hstep

end Gpcl.Lib.NullLists
