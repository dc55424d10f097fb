import Mathlib.Data.List.Nodup
import Mathlib.Tactic.Common

/-! # Null-terminated doubly linked lists

`Linked next prev null b p xs`: from `p` the links `next` lead through `xs` to `null`, and the
links `prev` lead back, from the first node to `b`. With `null` for `b` this is a whole list. A
node is put in front, or taken out anywhere, by changing the links of its neighbours. -/
namespace Gpcl.Lib.TwoWay

variable {α : Type*}

def Linked (next prev : α → α) (null : α) : α → α → List α → Prop
  | _, p, [] => p = null
  | b, p, x :: xs => p = x ∧ x ≠ null ∧ prev x = b ∧ Linked next prev null x (next x) xs

variable {next next' prev prev' : α → α} {null b p c : α} {xs ys : List α}

/-- A list reads the links of its own nodes only. -/
theorem Linked.congr :
    ∀ {xs : List α} {b p : α}, Linked next prev null b p xs → (∀ x ∈ xs, next' x = next x) →
    (∀ x ∈ xs, prev' x = prev x) → Linked next' prev' null b p xs
  | [], _, _, h, _, _ => h
  | x :: xs, b, p, ⟨hp, hx, hb, h⟩, hn, hv => by
    refine ⟨hp, hx, (hv x List.mem_cons_self).trans hb, ?_⟩
    rw [hn x List.mem_cons_self]
    exact h.congr (fun y hy => hn y (List.mem_cons_of_mem x hy)) fun y hy =>
      hv y (List.mem_cons_of_mem x hy)

theorem Linked.ne_null :
    ∀ {xs : List α} {b p x : α}, Linked next prev null b p xs → x ∈ xs → x ≠ null
  | y :: ys, _, _, x, ⟨_, hy, _, h⟩, hx => by
    rcases List.mem_cons.mp hx with rfl | hx
    · exact hy
    · exact h.ne_null hx

/-- The nodes are determined by the links. -/
theorem Linked.unique :
    ∀ {xs ys : List α} {b b' p : α}, Linked next prev null b p xs → Linked next prev null b' p ys →
    xs = ys
  | [], [], _, _, _, _, _ => rfl
  | [], y :: _, _, _, _, h, ⟨hp, hy, _⟩ => absurd (hp.symm.trans h) hy
  | x :: _, [], _, _, _, ⟨hp, hx, _⟩, h => absurd (hp.symm.trans h) hx
  | x :: xs, y :: ys, _, _, _, ⟨hp, _, _, h⟩, ⟨hp', _, _, h'⟩ => by
    obtain rfl := hp.symm.trans hp'
    rw [h.unique h']

/-- Behind a node stands a node or nothing. -/
theorem Linked.next_mem :
    ∀ {xs : List α} {b p : α}, Linked next prev null b p xs → c ∈ xs → next c ∈ xs ∨ next c = null
  | x :: xs, b, p, ⟨_, _, _, h⟩, hc => by
    rcases List.mem_cons.mp hc with rfl | hc
    · cases xs with
      | nil => exact .inr h
      | cons y ys =>
        rw [h.1]
        exact .inl (List.mem_cons_of_mem _ List.mem_cons_self)
    · rcases h.next_mem hc with hm | hz
      · exact .inl (List.mem_cons_of_mem x hm)
      · exact .inr hz

/-- Before a node stands a node, or what stands before the list. -/
theorem Linked.prev_mem :
    ∀ {xs : List α} {b p : α}, Linked next prev null b p xs → c ∈ xs → prev c ∈ xs ∨ prev c = b
  | x :: xs, b, p, ⟨_, _, hb, h⟩, hc => by
    rcases List.mem_cons.mp hc with rfl | hc
    · exact .inr hb
    · rcases h.prev_mem hc with hm | hx
      · exact .inl (List.mem_cons_of_mem x hm)
      · rw [hx]
        exact .inl List.mem_cons_self

/-- What stands before a node, and the list behind it. -/
theorem Linked.before :
    ∀ {xs : List α} {b p : α}, Linked next prev null b p (xs ++ c :: ys) → prev c = xs.getLastD b
  | [], _, _, ⟨_, _, hb, _⟩ => hb
  | x :: xs, b, _, ⟨_, _, _, h⟩ => by
    rw [h.before, List.getLastD_cons]

theorem Linked.behind :
    ∀ {xs : List α} {b p : α}, Linked next prev null b p (xs ++ c :: ys) →
    Linked next prev null c (next c) ys
  | [], _, _, ⟨_, _, _, h⟩ => h
  | _ :: _, _, _, ⟨_, _, _, h⟩ => h.behind

/-- The first node of a list alone leads to what stands before the list. -/
theorem Linked.rebase (h : Linked next prev null b p xs) (hnd : xs.Nodup)
    (hn : ∀ x ∈ xs, next' x = next x) (hv : ∀ x ∈ xs, x ≠ p → prev' x = prev x)
    (hp : p ≠ null → prev' p = c) :
    Linked next' prev' null c p xs := by
  cases xs with
  | nil => exact h
  | cons x xs =>
    obtain ⟨rfl, hx, -, h⟩ := h
    refine ⟨rfl, hx, hp hx, ?_⟩
    rw [hn p List.mem_cons_self]
    refine h.congr (fun y hy => hn y (List.mem_cons_of_mem p hy)) fun y hy =>
      hv y (List.mem_cons_of_mem p hy) ?_
    rintro rfl
    exact (List.nodup_cons.mp hnd).1 hy

/-- A node in front of a list. -/
theorem Linked.push (h : Linked next prev null b p xs) (hnd : xs.Nodup) (hc : c ≠ null)
    (hcv : prev' c = b) (hcn : next' c = p) (hn : ∀ x ∈ xs, next' x = next x)
    (hv : ∀ x ∈ xs, x ≠ p → prev' x = prev x) (hp : p ≠ null → prev' p = c) :
    Linked next' prev' null b c (c :: xs) := by
  refine ⟨rfl, hc, hcv, ?_⟩
  rw [hcn]
  exact h.rebase hnd hn hv hp

/-- A node `c` is taken out: its neighbours name each other. -/
theorem Linked.remove :
    ∀ {xs : List α} {b p p' : α}, Linked next prev null b p (xs ++ c :: ys) →
    (xs ++ c :: ys).Nodup →
    b ∉ xs ++ ys → (∀ x ∈ xs ++ ys, x ≠ prev c → next' x = next x) →
    (prev c ∈ xs → next' (prev c) = next c) →
    (∀ x ∈ xs ++ ys, x ≠ next c → prev' x = prev x) → (next c ≠ null → prev' (next c) = prev c) →
    p' = (if xs.isEmpty then next c else p) → Linked next' prev' null b p' (xs ++ ys)
  | [], b, p, p', h, hnd, hb, hn, _, hv, hcv, hp' => by
    obtain ⟨-, -, hcb, h⟩ := h
    rw [hp']
    refine h.rebase (List.nodup_cons.mp hnd).2 (fun x hx => hn x hx ?_) hv
      (fun hne => (hcv hne).trans hcb)
    rintro rfl
    exact hb (hcb ▸ hx)
  | x :: xs, b, p, p', h, hnd, hb, hn, hcn, hv, hcv, hp' => by
    have hbehind := h.behind
    obtain ⟨rfl, hx, hxb, h⟩ := h
    obtain ⟨hxs, hnd⟩ := List.nodup_cons.mp hnd
    have hxs' : p ∉ xs ++ ys := by
      intro hm
      exact hxs (((List.sublist_cons_self c ys).append_left xs).subset hm)
    rw [hp']
    -- behind the node that is taken out stands a node of `ys` or nothing
    have hpn : p ≠ next c := by
      rintro rfl
      cases ys with
      | nil => exact hx hbehind
      | cons y ys => exact hxs' (by simp [← hbehind.1])
    refine ⟨rfl, hx, (hv p List.mem_cons_self hpn).trans hxb, ?_⟩
    refine h.remove hnd hxs' (fun y hy => hn y (List.mem_cons_of_mem p hy))
      (fun hm => hcn (List.mem_cons_of_mem p hm))
      (fun y hy => hv y (List.mem_cons_of_mem p hy)) hcv ?_
    have hbefore := h.before
    cases xs with
    | nil =>
      have hcp : prev c = p := hbefore
      have := hcn (by rw [hcp]; exact List.mem_cons_self)
      rwa [hcp] at this
    | cons y xs =>
      refine hn p List.mem_cons_self ?_
      rintro hpc
      rw [List.getLastD_cons] at hbefore
      have hmem : p ∈ y :: xs := by
        rw [hpc, hbefore]
        exact List.getLastD_mem_cons
      exact hxs (List.mem_append_left _ hmem)

/-- A node is taken out of a whole list by the two writes to its neighbours. What becomes of its own
links does not matter. -/
theorem Linked.erase [DecidableEq α] (h : Linked next prev null null p xs) (hnd : xs.Nodup)
    (hc : c ∈ xs) (hn : ∀ x ∈ xs, x ≠ c → next' x = if x = prev c then next c else next x)
    (hv : ∀ x ∈ xs, x ≠ c → prev' x = if x = next c then prev c else prev x) :
    Linked next' prev' null null (if p = c then next c else p) (xs.erase c) := by
  have hnull : ∀ x ∈ xs, x ≠ null := fun x hx => h.ne_null hx
  obtain ⟨as, bs, rfl⟩ := List.append_of_mem hc
  obtain ⟨hcab, -⟩ := List.nodup_cons.mp (List.nodup_middle.mp hnd)
  have hother : ∀ x ∈ as ++ bs, x ∈ as ++ c :: bs ∧ x ≠ c := fun x hx =>
    ⟨((List.sublist_cons_self c bs).append_left as).subset hx, fun he => hcab (he ▸ hx)⟩
  have hbehind : next c ≠ null → next c ∈ as ++ bs := by
    intro h0
    have hbs := h.behind
    cases bs with
    | nil => exact absurd hbs h0
    | cons y ys => rw [hbs.1]; simp
  rw [List.erase_append_right _ (fun hm => hcab (List.mem_append_left bs hm)), List.erase_cons_head]
  refine h.remove hnd (fun hm => ?_) (fun x hx hxc => ?_) (fun hm => ?_) (fun x hx hxc => ?_)
    (fun h0 => ?_) ?_
  · exact hnull null (hother null hm).1 rfl
  · obtain ⟨hx', hne⟩ := hother x hx
    rw [hn x hx' hne, if_neg hxc]
  · obtain ⟨hx', hne⟩ := hother (prev c) (List.mem_append_left bs hm)
    rw [hn _ hx' hne, if_pos rfl]
  · obtain ⟨hx', hne⟩ := hother x hx
    rw [hv x hx' hne, if_neg hxc]
  · obtain ⟨hx', hne⟩ := hother (next c) (hbehind h0)
    rw [hv _ hx' hne, if_pos rfl]
  · cases as with
    | nil => rw [if_pos h.1]; rfl
    | cons x as =>
      have hpc : p ≠ c := by
        rw [h.1]
        exact (hother x (by simp)).2
      rw [if_neg hpc]
      rfl

end Gpcl.Lib.TwoWay
