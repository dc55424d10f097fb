import Gpcl.Tlsf.Resize

/-! # Neighbours

A block knows when the block before it is free, and the operations that free a block leave no two
free blocks next to each other. What clients have in use is a partial function from addresses to
sizes; each change of headers is one update of it. -/
namespace Gpcl.Tlsf
open Lib.Memory

variable {pools : List Region} {H H' : Nat → Option Header} {q p s x y : Nat} {b n d e : Header}

/-- The size of a block that a client has. -/
def usedSize (H : Nat → Option Header) (q : Nat) : Option Nat :=
  (H q).bind fun h => if h.free = false ∧ h.size ≠ 0 then some h.size else none

/-- Both this block and the next one are free. -/
def FreePair (H : Nat → Option Header) (q : Nat) : Prop :=
  ∃ h n, H q = some h ∧ h.free = true ∧ H (q + h.size + 8) = some n ∧ n.free = true

structure Marked (pools : List Region) (H : Nat → Option Header) : Prop where
  marked : ∀ q h n, H q = some h → h.free = true → H (q + h.size + 8) = some n → n.prevFree = true
  first : ∀ r ∈ pools, ∃ h, H (r.base + 8) = some h ∧ h.prevFree = false
  last : ∀ q h, H q = some h → h.size = 0 → ∃ r ∈ pools, q = r.stop
  room : ∀ r ∈ pools, 40 ≤ r.size

theorem usedSize_eq_some :
    usedSize H q = some s ↔ ∃ h, H q = some h ∧ h.free = false ∧ h.size = s ∧ s ≠ 0 := by
  unfold usedSize
  rw [Option.bind_eq_some_iff]
  constructor
  · rintro ⟨h, hq, hsize⟩
    split at hsize
    · rename_i hused
      cases hsize
      exact ⟨h, hq, hused.1, rfl, hused.2⟩
    · cases hsize
  · rintro ⟨h, hq, hfree, rfl, hne⟩
    exact ⟨h, hq, if_pos ⟨hfree, hne⟩⟩

theorem usedSize_some (hb : H q = some b) (hused : b.free = false) (hne : b.size ≠ 0) :
    usedSize H q = some b.size :=
  usedSize_eq_some.mpr ⟨b, hb, hused, rfl, hne⟩

theorem usedSize_none (hb : H q = none) : usedSize H q = none := by
  rw [usedSize, hb]
  rfl

theorem usedSize_free (hb : H q = some b) (hfree : b.free = true) : usedSize H q = none := by
  rw [usedSize, hb, Option.bind_some, if_neg]
  rw [hfree]
  exact fun h => Bool.noConfusion h.1

/-! ## Links that are not looked at -/

/-- A header but for its link. -/
def shape (h : Header) : Nat × Bool × Bool := (h.size, h.free, h.prevFree)

section Same

variable (hsame : ∀ x, (H' x).map shape = (H x).map shape)

include hsame in
theorem same_shape (hd : H' x = some d) :
    ∃ d₀, H x = some d₀ ∧ d₀.size = d.size ∧ d₀.free = d.free ∧ d₀.prevFree = d.prevFree := by
  have hx := hsame x
  rw [hd, Option.map_some] at hx
  obtain ⟨d₀, hd₀, heq⟩ := Option.map_eq_some_iff.mp hx.symm
  exact ⟨d₀, hd₀, congrArg Prod.fst heq, congrArg (fun s => s.2.1) heq,
    congrArg (fun s => s.2.2) heq⟩

include hsame in
theorem usedSize_congr : usedSize H' = usedSize H := by
  funext q
  cases hq : H' q with
  | none =>
    have hx := hsame q
    rw [hq, Option.map_none] at hx
    rw [usedSize_none hq, usedSize_none (Option.map_eq_none_iff.mp hx.symm)]
  | some h =>
    obtain ⟨h₀, hq₀, hsize, hfree, -⟩ := same_shape hsame hq
    rw [usedSize, usedSize, hq, hq₀, Option.bind_some, Option.bind_some, hsize, hfree]

include hsame in
theorem FreePair.congr (h : FreePair H' x) : FreePair H x := by
  obtain ⟨d, m, hd, hfree, hm, hmfree⟩ := h
  obtain ⟨d₀, hd₀, hsize, hflag, -⟩ := same_shape hsame hd
  obtain ⟨m₀, hm₀, -, hmflag, -⟩ := same_shape hsame hm
  exact ⟨d₀, m₀, hd₀, hflag.trans hfree, by rw [hsize]; exact hm₀, hmflag.trans hmfree⟩

include hsame in
theorem Marked.congr (h : Marked pools H) : Marked pools H' := by
  constructor
  case marked =>
    intro x d m hd hfree hm
    obtain ⟨d₀, hd₀, hsize, hflag, -⟩ := same_shape hsame hd
    obtain ⟨m₀, hm₀, -, -, hprev⟩ := same_shape hsame hm
    exact hprev ▸ h.marked x d₀ m₀ hd₀ (hflag.trans hfree) (by rw [hsize]; exact hm₀)
  case first =>
    intro r hr
    obtain ⟨f, hf, hprev⟩ := h.first r hr
    obtain ⟨f', hf', -, -, hprev'⟩ := same_shape (fun x => (hsame x).symm) hf
    exact ⟨f', hf', hprev'.trans hprev⟩
  case last =>
    intro x d hd hzero
    obtain ⟨d₀, hd₀, hsize, -⟩ := same_shape hsame hd
    exact h.last x d₀ hd₀ (hsize.trans hzero)
  case room => exact h.room

end Same

theorem relink_same (hb : H q = some b) (link : Nat) (x : Nat) :
    (Function.update H q (some { b with prevPhys := link }) x).map shape = (H x).map shape := by
  by_cases hxq : x = q
  · rw [hxq, Function.update_self, hb]
    rfl
  · rw [Function.update_of_ne hxq]

/-- Where a block says that the one before it is used, its link back is not looked at. -/
theorem Laid.relink (h : Laid pools H) (hb : H q = some b) (hprev : b.prevFree = false)
    (link : Nat) :
    Laid pools (Function.update H q (some { b with prevPhys := link })) := by
  have hbefore : ∀ x d, Function.update H q (some { b with prevPhys := link }) x = some d →
    (x = q ∧ d = { b with prevPhys := link }) ∨
      H x = some d := by
    intro x d hd
    obtain hx | ⟨-, hd⟩ := update_eq_some hd
    · exact .inl hx
    · exact .inr hd
  refine h.reflag ?_ ?_ ?_ ?_
  · intro x d hd
    obtain ⟨rfl, rfl⟩ | hd := hbefore x d hd
    · exact ⟨b, hb, rfl⟩
    · exact ⟨d, hd, rfl⟩
  · exact fun x d hd => exists_update hd
  · intro x d hd hzero
    obtain ⟨rfl, rfl⟩ | hd := hbefore x d hd
    · exact h.last _ b hb hzero
    · exact h.last x d hd hzero
  · intro x d hd hprev'
    obtain ⟨rfl, rfl⟩ | hd := hbefore x d hd
    · rw [hprev] at hprev'
      cases hprev'
    · obtain ⟨e, he, hfree, hend⟩ := h.prev x d hd hprev'
      by_cases hphys : d.prevPhys = q
      · rw [hphys, hb] at he
        cases he
        rw [hphys, Function.update_self]
        exact ⟨_, rfl, hfree, hphys ▸ hend⟩
      · rw [Function.update_of_ne hphys]
        exact ⟨e, he, hfree, hend⟩

/-! ## Neighbours -/

theorem Laid.pred_unique (h : Laid pools H) (hd : H x = some d) (hb : H q = some b)
    (heq : x + d.size + 8 = q + b.size + 8) :
    x = q := by
  refine Classical.byContradiction fun hne => ?_
  have := h.apart_of_ne hb hd hne
  omega

/-- The first block of a pool is behind no other. -/
theorem Laid.first_ne (h : Laid pools H) (hb : H q = some b) (hne : b.size ≠ 0) {r : Region}
    (hr : r ∈ pools) :
    r.base + 8 ≠ q + b.size + 8 := by
  intro heq
  obtain ⟨r', hr', hbase, hstop, hnext⟩ := h.within q b hb
  have hnext := hnext hne
  by_cases hrr : r = r'
  · subst hrr
    omega
  · have hdisjoint := h.apart r hr r' hr' hrr
    unfold Region.Disjoint Region.stop at *
    omega

/-- The link back goes to the block before. -/
theorem Laid.prevPhys_eq (h : Laid pools H) (hb : H q = some b) (hn : H (q + b.size + 8) = some n)
    (hprev : n.prevFree = true) :
    n.prevPhys = q ∧ b.free = true := by
  obtain ⟨d, hd, hfree, hend⟩ := h.prev _ n hn hprev
  have heq := h.pred_unique hd hb hend
  rw [heq, hb] at hd
  cases hd
  exact ⟨heq, hfree⟩

/-! ## Marking -/

theorem used_cases (hd : usedHeaders H q b n x = some d) : (x = q ∧ d = { b with free := false }) ∨
    (x = q + b.size + 8 ∧ d = { n with prevFree := false }) ∨
      (x ≠ q ∧ x ≠ q + b.size + 8 ∧ H x = some d) := by
  obtain hx | ⟨hxq, hd⟩ := update_eq_some hd
  · exact .inl hx
  · obtain hx | ⟨hxn, hd⟩ := update_eq_some hd
    · exact .inr (.inl hx)
    · exact .inr (.inr ⟨hxq, hxn, hd⟩)

theorem usedHeaders_of_ne (hxq : x ≠ q) (hxn : x ≠ q + b.size + 8) :
    usedHeaders H q b n x = H x := by
  rw [usedHeaders, Function.update_of_ne hxq, Function.update_of_ne hxn]

theorem usedHeaders_self : usedHeaders H q b n q = some { b with free := false } :=
  Function.update_self ..

theorem usedHeaders_next :
    usedHeaders H q b n (q + b.size + 8) = some { n with prevFree := false } := by
  rw [usedHeaders, Function.update_of_ne (by omega), Function.update_self]

/-- A header from before, with the same size. -/
theorem used_before (hb : H q = some b) (hn : H (q + b.size + 8) = some n)
    (hd : usedHeaders H q b n x = some d) :
    ∃ d₀, H x = some d₀ ∧ d₀.size = d.size ∧ (d.free = true → d₀.free = true ∧ x ≠ q) := by
  obtain ⟨rfl, rfl⟩ | ⟨rfl, rfl⟩ | ⟨hxq, -, hd⟩ := used_cases hd
  · exact ⟨b, hb, rfl, fun h => Bool.noConfusion h⟩
  · exact ⟨n, hn, rfl, fun h => ⟨h, by omega⟩⟩
  · exact ⟨d, hd, rfl, fun h => ⟨h, hxq⟩⟩

theorem Marked.used (h : Marked pools H) (hl : Laid pools H) (hb : H q = some b)
    (hn : H (q + b.size + 8) = some n) :
    Marked pools (usedHeaders H q b n) := by
  constructor
  case marked =>
    intro x d m hd hfree hm
    obtain ⟨d₀, hd₀, hsize, hold⟩ := used_before hb hn hd
    obtain ⟨hfree₀, hxq⟩ := hold hfree
    rw [← hsize] at hm
    obtain ⟨heq, rfl⟩ | ⟨heq, -⟩ | ⟨-, -, hm⟩ := used_cases hm
    · exact h.marked x d₀ b hd₀ hfree₀ (heq ▸ hb)
    · exact absurd (hl.pred_unique hd₀ hb heq) hxq
    · exact h.marked x d₀ m hd₀ hfree₀ hm
  case first =>
    intro r hr
    obtain ⟨f, hf, hprev⟩ := h.first r hr
    by_cases hxq : r.base + 8 = q
    · rw [hxq, hb] at hf
      cases hf
      rw [hxq]
      exact ⟨_, usedHeaders_self, hprev⟩
    · by_cases hxn : r.base + 8 = q + b.size + 8
      · rw [hxn]
        exact ⟨_, usedHeaders_next, rfl⟩
      · exact ⟨f, by rw [usedHeaders_of_ne hxq hxn]; exact hf, hprev⟩
  case last =>
    intro x d hd hzero
    obtain ⟨d₀, hd₀, hsize, -⟩ := used_before hb hn hd
    exact h.last x d₀ hd₀ (hsize.trans hzero)
  case room => exact h.room

theorem usedSize_used (hn : H (q + b.size + 8) = some n) (hne : b.size ≠ 0) :
    usedSize (usedHeaders H q b n) = Function.update (usedSize H) q (some b.size) := by
  funext x
  by_cases hxq : x = q
  · rw [hxq, Function.update_self]
    exact usedSize_some (b := { b with free := false }) usedHeaders_self rfl hne
  · rw [Function.update_of_ne hxq]
    by_cases hxn : x = q + b.size + 8
    · rw [hxn, usedSize, usedSize, usedHeaders_next, hn]
      rfl
    · rw [usedSize, usedHeaders_of_ne hxq hxn]
      rfl

theorem FreePair.of_used (hb : H q = some b) (hn : H (q + b.size + 8) = some n)
    (h : FreePair (usedHeaders H q b n) x) :
    FreePair H x ∧ x ≠ q ∧ ∀ d, H x = some d → x + d.size + 8 ≠ q := by
  obtain ⟨d, m, hd, hfree, hm, hmfree⟩ := h
  obtain ⟨d₀, hd₀, hsize, hold⟩ := used_before hb hn hd
  obtain ⟨hfree₀, hxq⟩ := hold hfree
  rw [← hsize] at hm
  obtain ⟨m₀, hm₀, -, holdm⟩ := used_before hb hn hm
  obtain ⟨hmfree₀, hnq⟩ := holdm hmfree
  refine ⟨⟨d₀, m₀, hd₀, hfree₀, hm₀, hmfree₀⟩, hxq, fun d' hd' => ?_⟩
  rw [hd₀] at hd'
  cases hd'
  exact hnq

theorem freed_cases (hd : freedHeaders H q b n x = some d) : (x = q ∧ d = { b with free := true }) ∨
    (x = q + b.size + 8 ∧ d = { n with prevPhys := q, prevFree := true }) ∨
      (x ≠ q ∧ x ≠ q + b.size + 8 ∧ H x = some d) := by
  obtain hx | ⟨hxq, hd⟩ := update_eq_some hd
  · exact .inl hx
  · obtain hx | ⟨hxn, hd⟩ := update_eq_some hd
    · exact .inr (.inl hx)
    · exact .inr (.inr ⟨hxq, hxn, hd⟩)

theorem freedHeaders_of_ne (hxq : x ≠ q) (hxn : x ≠ q + b.size + 8) :
    freedHeaders H q b n x = H x := by
  rw [freedHeaders, Function.update_of_ne hxq, Function.update_of_ne hxn]

theorem freedHeaders_self : freedHeaders H q b n q = some { b with free := true } :=
  Function.update_self ..

theorem freedHeaders_next :
    freedHeaders H q b n (q + b.size + 8) = some { n with prevPhys := q, prevFree := true } := by
  rw [freedHeaders, Function.update_of_ne (by omega), Function.update_self]

theorem freed_before (hb : H q = some b) (hn : H (q + b.size + 8) = some n)
    (hd : freedHeaders H q b n x = some d) :
    ∃ d₀, H x = some d₀ ∧ d₀.size = d.size ∧ (x ≠ q → d₀.free = d.free) := by
  obtain ⟨rfl, rfl⟩ | ⟨rfl, rfl⟩ | ⟨-, -, hd⟩ := freed_cases hd
  · exact ⟨b, hb, rfl, fun hne => absurd rfl hne⟩
  · exact ⟨n, hn, rfl, fun _ => rfl⟩
  · exact ⟨d, hd, rfl, fun _ => rfl⟩

theorem Marked.freed (h : Marked pools H) (hl : Laid pools H) (hb : H q = some b)
    (hn : H (q + b.size + 8) = some n) (hne : b.size ≠ 0) :
    Marked pools (freedHeaders H q b n) := by
  constructor
  case marked =>
    intro x d m hd hfree hm
    obtain ⟨d₀, hd₀, hsize, hold⟩ := freed_before hb hn hd
    rw [← hsize] at hm
    obtain ⟨heq, rfl⟩ | ⟨-, rfl⟩ | ⟨-, hmn, hm⟩ := freed_cases hm
    · have hxq : x ≠ q := by omega
      exact h.marked x d₀ b hd₀ ((hold hxq).trans hfree) (heq ▸ hb)
    · rfl
    · have hxq : x ≠ q := by
        rintro rfl
        rw [hb] at hd₀
        cases hd₀
        exact hmn rfl
      exact h.marked x d₀ m hd₀ ((hold hxq).trans hfree) hm
  case first =>
    intro r hr
    obtain ⟨f, hf, hprev⟩ := h.first r hr
    by_cases hxq : r.base + 8 = q
    · rw [hxq, hb] at hf
      cases hf
      rw [hxq]
      exact ⟨_, freedHeaders_self, hprev⟩
    · by_cases hxn : r.base + 8 = q + b.size + 8
      · exact absurd hxn (hl.first_ne hb hne hr)
      · exact ⟨f, by rw [freedHeaders_of_ne hxq hxn]; exact hf, hprev⟩
  case last =>
    intro x d hd hzero
    obtain ⟨d₀, hd₀, hsize, -⟩ := freed_before hb hn hd
    exact h.last x d₀ hd₀ (hsize.trans hzero)
  case room => exact h.room

theorem usedSize_freed (hn : H (q + b.size + 8) = some n) :
    usedSize (freedHeaders H q b n) = Function.update (usedSize H) q none := by
  funext x
  by_cases hxq : x = q
  · rw [hxq, Function.update_self]
    exact usedSize_free freedHeaders_self rfl
  · rw [Function.update_of_ne hxq]
    by_cases hxn : x = q + b.size + 8
    · rw [hxn, usedSize, usedSize, freedHeaders_next, hn]
      rfl
    · rw [usedSize, usedSize, freedHeaders_of_ne hxq hxn]

theorem FreePair.of_freed (hb : H q = some b) (hn : H (q + b.size + 8) = some n)
    (h : FreePair (freedHeaders H q b n) x) :
    FreePair H x ∨ x = q ∨ ∃ d, H x = some d ∧ x + d.size + 8 = q := by
  obtain ⟨d, m, hd, hfree, hm, hmfree⟩ := h
  obtain ⟨d₀, hd₀, hsize, hold⟩ := freed_before hb hn hd
  rw [← hsize] at hm
  obtain ⟨m₀, hm₀, -, holdm⟩ := freed_before hb hn hm
  by_cases hxq : x = q
  · exact .inr (.inl hxq)
  · by_cases hnext : x + d₀.size + 8 = q
    · exact .inr (.inr ⟨d₀, hd₀, hnext⟩)
    · exact .inl ⟨d₀, m₀, hd₀, (hold hxq).trans hfree, hm₀, (holdm hnext).trans hmfree⟩

/-! ## Splitting -/

/-- A block other than the two parts was there before. -/
theorem split_before (hn : H (q + b.size + 8) = some n) (hd : splitHeaders H q s b n x = some d)
    (hxq : x ≠ q) (hxr : x ≠ q + s + 8) :
    ∃ d₀, H x = some d₀ ∧ d₀.size = d.size ∧ d₀.free = d.free := by
  obtain ⟨rfl, -⟩ | ⟨rfl, -⟩ | ⟨rfl, rfl⟩ | ⟨-, -, -, hd⟩ := split_cases hd
  · exact absurd rfl hxr
  · exact absurd rfl hxq
  · exact ⟨n, hn, rfl, rfl⟩
  · exact ⟨d, hd, rfl, rfl⟩

theorem Marked.split (h : Marked pools H) (hl : Laid pools H) (hb : H q = some b)
    (hn : H (q + b.size + 8) = some n) (hs : s + 8 < b.size)
    (hs0 : s ≠ 0) : Marked pools (splitHeaders H q s b n) := by
  have hnew := hl.none_between (s := s) hb (by omega)
  constructor
  case marked =>
    intro x d m hd hfree hm
    obtain ⟨hr, rfl⟩ | ⟨heq, rfl⟩ | ⟨-, rfl⟩ | ⟨hmq, hmr, hmn, hm⟩ := split_cases hm
    · rfl
    · -- what is behind another block than the two parts
      have hxq : x ≠ q := by omega
      have hxr : x ≠ q + s + 8 := by omega
      obtain ⟨d₀, hd₀, hsize, hflag⟩ := split_before hn hd hxq hxr
      rw [← hsize] at heq
      exact h.marked x d₀ b hd₀ (hflag.trans hfree) (heq ▸ hb)
    · rfl
    · have hxq : x ≠ q := by
        rintro rfl
        rw [splitHeaders_self] at hd
        cases hd
        exact hmr rfl
      have hxr : x ≠ q + s + 8 := by
        rintro rfl
        rw [splitHeaders_second] at hd
        cases hd
        refine hmn ?_
        dsimp only
        omega
      obtain ⟨d₀, hd₀, hsize, hflag⟩ := split_before hn hd hxq hxr
      rw [← hsize] at hm
      exact h.marked x d₀ m hd₀ (hflag.trans hfree) hm
  case first =>
    intro r hr
    obtain ⟨f, hf, hprev⟩ := h.first r hr
    by_cases hxq : r.base + 8 = q
    · rw [hxq, hb] at hf
      cases hf
      rw [hxq]
      exact ⟨_, splitHeaders_self, hprev⟩
    · have hxr : r.base + 8 ≠ q + s + 8 := by
        intro heq
        rw [heq, hnew] at hf
        cases hf
      exact ⟨f, by rw [splitHeaders_of_ne hxq hxr (hl.first_ne hb (by omega) hr)]; exact hf, hprev⟩
  case last =>
    intro x d hd hzero
    by_cases hxq : x = q
    · rw [hxq, splitHeaders_self] at hd
      cases hd
      exact absurd hzero hs0
    · by_cases hxr : x = q + s + 8
      · rw [hxr, splitHeaders_second] at hd
        cases hd
        dsimp only at hzero
        omega
      · obtain ⟨d₀, hd₀, hsize, -⟩ := split_before hn hd hxq hxr
        exact h.last x d₀ hd₀ (hsize.trans hzero)
  case room => exact h.room

theorem usedSize_split (hl : Laid pools H) (hb : H q = some b) (hn : H (q + b.size + 8) = some n)
    (hfree : b.free = true)
    (hs : s + 8 < b.size) : usedSize (splitHeaders H q s b n) = usedSize H := by
  funext x
  by_cases hxq : x = q
  · rw [hxq, usedSize_free hb hfree]
    exact usedSize_free splitHeaders_self hfree
  · by_cases hxr : x = q + s + 8
    · rw [hxr, usedSize_none (hl.none_between (s := s) hb (by omega))]
      exact usedSize_free splitHeaders_second rfl
    · by_cases hxn : x = q + b.size + 8
      · rw [hxn, usedSize, usedSize, splitHeaders_next (by omega), hn]
        rfl
      · rw [usedSize, usedSize, splitHeaders_of_ne hxq hxr hxn]

/-- The two parts are a pair; other pairs were there before, but for one of the second part. -/
theorem FreePair.of_split (hl : Laid pools H) (hb : H q = some b) (hn : H (q + b.size + 8) = some n)
    (hfree : b.free = true) (hs : s + 8 < b.size) (h : FreePair (splitHeaders H q s b n) x) :
    x = q ∨ (x = q + s + 8 ∧ FreePair H q) ∨ FreePair H x := by
  obtain ⟨d, m, hd, hdfree, hm, hmfree⟩ := h
  by_cases hxq : x = q
  · exact .inl hxq
  · refine .inr ?_
    by_cases hxr : x = q + s + 8
    · rw [hxr, splitHeaders_second] at hd
      cases hd
      rw [hxr, show q + s + 8 + (b.size - (s + 8)) + 8 = q + b.size + 8 by omega,
        splitHeaders_next (by omega)] at hm
      cases hm
      exact .inl ⟨hxr, b, n, hb, hfree, hn, hmfree⟩
    · obtain ⟨d₀, hd₀, hsize, hflag⟩ := split_before hn hd hxq hxr
      rw [← hsize] at hm
      have hapart := hl.apart_of_ne hb hd₀ hxq
      by_cases hnq : x + d₀.size + 8 = q
      · exact .inr ⟨d₀, b, hd₀, hflag.trans hdfree, hnq ▸ hb, hfree⟩
      · obtain ⟨m₀, hm₀, -, hmflag⟩ := split_before hn hm hnq (by omega)
        exact .inr ⟨d₀, m₀, hd₀, hflag.trans hdfree, hm₀, hmflag.trans hmfree⟩

/-! ## Absorbing -/

/-- A block other than the grown one was there before. -/
theorem absorb_before (hn : H (q + b.size + 8) = some n) (he : absorbHeaders H p q d b n x = some e)
    (hxp : x ≠ p) (hq : p + d.size + 8 = q) :
    x ≠ q ∧ ∃ e₀, H x = some e₀ ∧ e₀.size = e.size ∧ e₀.free = e.free ∧
    e₀.prevFree = e.prevFree := by
  obtain ⟨rfl, -⟩ | ⟨rfl, rfl⟩ | ⟨-, hxq, -, he⟩ := absorb_cases he
  · exact absurd rfl hxp
  · exact ⟨by omega, n, hn, rfl, rfl, rfl⟩
  · exact ⟨hxq, e, he, rfl, rfl, rfl⟩

theorem Marked.absorb (h : Marked pools H) (hl : Laid pools H) (hd : H p = some d)
    (hb : H q = some b) (hn : H (q + b.size + 8) = some n) (hq : p + d.size + 8 = q)
    (hd0 : d.size ≠ 0) (hb0 : b.size ≠ 0) (hfree : b.free = true) :
    Marked pools (absorbHeaders H p q d b n) := by
  constructor
  case marked =>
    intro x e m he hefree hm
    by_cases hxp : x = p
    · rw [hxp, absorbHeaders_self] at he
      cases he
      rw [hxp, show p + (d.size + b.size + 8) + 8 = q + b.size + 8 by omega,
        absorbHeaders_next hq] at hm
      cases hm
      exact h.marked q b n hb hfree hn
    · obtain ⟨hxq, e₀, he₀, hsize, hflag, -⟩ := absorb_before hn he hxp hq
      rw [← hsize] at hm
      by_cases hmp : x + e₀.size + 8 = p
      · rw [hmp, absorbHeaders_self] at hm
        cases hm
        exact h.marked x e₀ d he₀ (hflag.trans hefree) (hmp ▸ hd)
      · obtain ⟨-, m₀, hm₀, -, -, hprev⟩ := absorb_before hn hm hmp hq
        exact hprev ▸ h.marked x e₀ m₀ he₀ (hflag.trans hefree) hm₀
  case first =>
    intro r hr
    obtain ⟨f, hf, hprev⟩ := h.first r hr
    by_cases hxp : r.base + 8 = p
    · rw [hxp, hd] at hf
      cases hf
      rw [hxp]
      exact ⟨_, absorbHeaders_self, hprev⟩
    · have hxq : r.base + 8 ≠ q := hq ▸ hl.first_ne hd hd0 hr
      exact ⟨f, by rw [absorbHeaders_of_ne hxp hxq (hl.first_ne hb hb0 hr)]; exact hf, hprev⟩
  case last =>
    intro x e he hzero
    by_cases hxp : x = p
    · rw [hxp, absorbHeaders_self] at he
      cases he
      dsimp only at hzero
      omega
    · obtain ⟨-, e₀, he₀, hsize, -⟩ := absorb_before hn he hxp hq
      exact h.last x e₀ he₀ (hsize.trans hzero)
  case room => exact h.room

theorem usedSize_absorb (hd : H p = some d) (hb : H q = some b) (hn : H (q + b.size + 8) = some n)
    (hq : p + d.size + 8 = q) (hdfree : d.free = true) (hfree : b.free = true) :
    usedSize (absorbHeaders H p q d b n) = usedSize H := by
  funext x
  by_cases hxp : x = p
  · rw [hxp, usedSize_free hd hdfree]
    exact usedSize_free absorbHeaders_self hdfree
  · by_cases hxq : x = q
    · rw [hxq, usedSize_free hb hfree]
      exact usedSize_none (absorbHeaders_gone (by omega))
    · by_cases hxn : x = q + b.size + 8
      · rw [hxn, usedSize, usedSize, absorbHeaders_next hq, hn]
        rfl
      · rw [usedSize, usedSize, absorbHeaders_of_ne hxp hxq hxn]

theorem FreePair.of_absorb (hd : H p = some d) (hb : H q = some b)
    (hn : H (q + b.size + 8) = some n) (hq : p + d.size + 8 = q) (hdfree : d.free = true)
    (hfree : b.free = true) (h : FreePair (absorbHeaders H p q d b n) x) :
    (x = p ∧ FreePair H q) ∨ (x ≠ p ∧ x ≠ q ∧ FreePair H x) := by
  obtain ⟨e, m, he, hefree, hm, hmfree⟩ := h
  by_cases hxp : x = p
  · rw [hxp, absorbHeaders_self] at he
    cases he
    rw [hxp, show p + (d.size + b.size + 8) + 8 = q + b.size + 8 by omega,
      absorbHeaders_next hq] at hm
    cases hm
    exact .inl ⟨hxp, b, n, hb, hfree, hn, hmfree⟩
  · obtain ⟨hxq, e₀, he₀, hsize, hflag, -⟩ := absorb_before hn he hxp hq
    rw [← hsize] at hm
    refine .inr ⟨hxp, hxq, ?_⟩
    by_cases hmp : x + e₀.size + 8 = p
    · exact ⟨e₀, d, he₀, hflag.trans hefree, hmp ▸ hd, hdfree⟩
    · obtain ⟨-, m₀, hm₀, -, hmflag, -⟩ := absorb_before hn hm hmp hq
      exact ⟨e₀, m₀, he₀, hflag.trans hefree, hm₀, hmflag.trans hmfree⟩

/-! ## Pools -/

theorem Marked.empty : Marked [] fun _ => none := by
  constructor
  · intro q h n hq
    cases hq
  · intro r hr
    cases hr
  · intro q h hq
    cases hq
  · intro r hr
    cases hr

section NewPool

variable {mem size : Nat}

/-- What is behind a block from before was there before as well. -/
theorem pool_before (hl : Laid pools H) (hfresh : ∀ r ∈ pools, Region.Disjoint ⟨mem, size + 16⟩ r)
    (he : H x = some e)
    (he0 : e.size ≠ 0) : poolHeaders H mem size (x + e.size + 8) = H (x + e.size + 8) := by
  obtain ⟨-, n, hn⟩ := hl.next x e he he0
  have := hl.outside hfresh hn
  exact poolHeaders_of_ne (by omega) (by omega)

theorem Marked.addPool (h : Marked pools H) (hl : Laid pools H)
    (hfresh : ∀ r ∈ pools, Region.Disjoint ⟨mem, size + 16⟩ r)
    (hmin : 24 ≤ size) : Marked (⟨mem, size + 16⟩ :: pools) (poolHeaders H mem size) := by
  constructor
  case marked =>
    intro x e m he hefree hm
    obtain ⟨-, rfl⟩ | ⟨rfl, rfl⟩ | ⟨-, -, he⟩ := pool_cases he
    · cases hefree
    · rw [show mem + 8 + size + 8 = mem + size + 16 by omega, poolHeaders_last] at hm
      cases hm
      rfl
    · rw [pool_before hl hfresh he (hl.size_of_free he hefree)] at hm
      exact h.marked x e m he hefree hm
  case first =>
    intro r hr
    obtain rfl | hr := List.mem_cons.mp hr
    · exact ⟨_, poolHeaders_first, rfl⟩
    · obtain ⟨f, hf, hprev⟩ := h.first r hr
      have := hl.outside hfresh hf
      exact ⟨f, by rw [poolHeaders_of_ne (by omega) (by omega)]; exact hf, hprev⟩
  case last =>
    intro x e he hzero
    obtain ⟨rfl, rfl⟩ | ⟨rfl, rfl⟩ | ⟨-, -, he⟩ := pool_cases he
    · exact ⟨_, List.mem_cons_self, Nat.add_assoc mem size 16⟩
    · dsimp only at hzero
      omega
    · obtain ⟨r, hr, hstop⟩ := h.last x e he hzero
      exact ⟨r, List.mem_cons_of_mem _ hr, hstop⟩
  case room =>
    intro r hr
    obtain rfl | hr := List.mem_cons.mp hr
    · exact Nat.add_le_add_right hmin 16
    · exact h.room r hr

theorem usedSize_addPool (hl : Laid pools H)
    (hfresh : ∀ r ∈ pools, Region.Disjoint ⟨mem, size + 16⟩ r) :
    usedSize (poolHeaders H mem size) = usedSize H := by
  have hempty : ∀ x, mem + 8 ≤ x → x < mem + size + 24 → H x = none := by
    intro x hle hlt
    cases he : H x with
    | none => rfl
    | some e =>
      have := hl.outside hfresh he
      omega
  funext x
  by_cases hfirst : x = mem + 8
  · rw [hfirst, usedSize_none (hempty _ (by omega) (by omega))]
    exact usedSize_free poolHeaders_first rfl
  · by_cases hlast : x = mem + size + 16
    · rw [hlast, usedSize_none (hempty _ (by omega) (by omega)), usedSize, poolHeaders_last]
      rfl
    · rw [usedSize, usedSize, poolHeaders_of_ne hfirst hlast]

theorem FreePair.of_addPool (hl : Laid pools H)
    (hfresh : ∀ r ∈ pools, Region.Disjoint ⟨mem, size + 16⟩ r)
    (h : FreePair (poolHeaders H mem size) x) : FreePair H x := by
  obtain ⟨e, m, he, hefree, hm, hmfree⟩ := h
  obtain ⟨-, rfl⟩ | ⟨rfl, rfl⟩ | ⟨-, -, he⟩ := pool_cases he
  · cases hefree
  · rw [show mem + 8 + size + 8 = mem + size + 16 by omega, poolHeaders_last] at hm
    cases hm
    cases hmfree
  · rw [pool_before hl hfresh he (hl.size_of_free he hefree)] at hm
    exact ⟨e, m, he, hefree, hm, hmfree⟩

end NewPool

/-- The headers after `tlsf_remove_pool`. -/
def withoutPool (H : Nat → Option Header) (q next : Nat) : Nat → Option Header :=
  Function.update (Function.update H q none) next none

section OldPool

variable {r : Region} {next : Nat}

theorem withoutPool_cases (he : withoutPool H q next x = some e) :
    x ≠ q ∧ x ≠ next ∧ H x = some e := by
  have hxn : x ≠ next := by
    rintro rfl
    rw [withoutPool, Function.update_self] at he
    cases he
  rw [withoutPool, Function.update_of_ne hxn] at he
  have hxq : x ≠ q := by
    rintro rfl
    rw [Function.update_self] at he
    cases he
  rw [Function.update_of_ne hxq] at he
  exact ⟨hxq, hxn, he⟩

theorem withoutPool_of_ne (hxq : x ≠ q) (hxn : x ≠ next) : withoutPool H q next x = H x := by
  rw [withoutPool, Function.update_of_ne hxn, Function.update_of_ne hxq]

/-- Two pools with a common point. -/
theorem Marked.pool_unique (h : Marked pools H) (hl : Laid pools H) {r' : Region} (hr : r ∈ pools)
    (hr' : r' ∈ pools)
    (hmeet : (r.base ≤ r'.base ∧ r'.base < r.stop) ∨ (r.base < r'.stop ∧ r'.stop ≤ r.stop)) :
    r' = r := by
  refine Classical.byContradiction fun hne => ?_
  have hdisjoint := hl.apart r' hr' r hr hne
  have hroom := h.room r hr
  have hroom' := h.room r' hr'
  unfold Region.Disjoint Region.stop at *
  omega

/-- A pool without clients: its first block goes up to its last one. -/
structure Vacant (r : Region) (H : Nat → Option Header) (b n : Header) : Prop where
  first : H (r.base + 8) = some b
  free : b.free = true
  next : H (r.base + 8 + b.size + 8) = some n
  last : n.size = 0

theorem Vacant.stop (h : Vacant r H b n) (hl : Laid pools H) (hm : Marked pools H)
    (hr : r ∈ pools) :
    r.base + 8 + b.size + 8 = r.stop := by
  have hne := hl.size_of_free h.first h.free
  obtain ⟨r₁, hr₁, hbase, -, hnext⟩ := hl.within _ b h.first
  have hnext := hnext hne
  obtain rfl : r = r₁ := hm.pool_unique hl hr₁ hr (.inl ⟨by omega, by omega⟩)
  obtain ⟨r₂, hr₂, hstop⟩ := hm.last _ n h.next h.last
  obtain rfl : r₂ = r := hm.pool_unique hl hr hr₂ (.inr ⟨by omega, by omega⟩)
  exact hstop

/-- There are no other headers in such a pool. -/
theorem Vacant.outside (h : Vacant r H b n) (hl : Laid pools H) (hm : Marked pools H)
    (hr : r ∈ pools) (he : withoutPool H (r.base + 8) (r.base + 8 + b.size + 8) x = some e) :
    ∃ r' ∈ pools.filter (· ≠ r), Within r' x e.size := by
  obtain ⟨hxq, hxn, hbefore⟩ := withoutPool_cases he
  obtain ⟨r', hr', hwithin⟩ := hl.within x e hbefore
  refine ⟨r', List.mem_filter.mpr ⟨hr', decide_eq_true ?_⟩, hwithin⟩
  rintro rfl
  obtain ⟨hbase, hstop, -⟩ := hwithin
  have hend := h.stop hl hm hr
  have := hl.apart_of_ne h.first hbefore hxq
  omega

/-- A block from before still has the one behind it. -/
theorem Vacant.next_kept (h : Vacant r H b n) (hl : Laid pools H) (hr : r ∈ pools)
    (he : H x = some e) (hx : x ≠ r.base + 8) (he0 : e.size ≠ 0) :
    withoutPool H (r.base + 8) (r.base + 8 + b.size + 8) (x + e.size + 8) = H (x + e.size + 8) :=
  withoutPool_of_ne (fun heq => hl.first_ne he he0 hr heq.symm) fun heq =>
    hx (hl.pred_unique he h.first heq)

theorem Laid.removePool (hl : Laid pools H) (hm : Marked pools H) (hr : r ∈ pools)
    (h : Vacant r H b n) :
    Laid (pools.filter (· ≠ r)) (withoutPool H (r.base + 8) (r.base + 8 + b.size + 8)) := by
  have hsub : ∀ r' ∈ pools.filter (· ≠ r), r' ∈ pools := fun r' hr' => List.mem_of_mem_filter hr'
  constructor
  case pool => exact fun r' hr' => hl.pool r' (hsub r' hr')
  case apart => exact fun r₁ hr₁ r₂ hr₂ => hl.apart r₁ (hsub r₁ hr₁) r₂ (hsub r₂ hr₂)
  case within => exact fun x e he => h.outside hl hm hr he
  case aligned => exact fun x e he => hl.aligned x e (withoutPool_cases he).2.2
  case order =>
    exact fun x x' e e' he he' =>
      hl.order x x' e e' (withoutPool_cases he).2.2 (withoutPool_cases he').2.2
  case next =>
    intro x e he hne
    obtain ⟨hxq, -, he⟩ := withoutPool_cases he
    rw [h.next_kept hl hr he hxq hne]
    exact hl.next x e he hne
  case last => exact fun x e he => hl.last x e (withoutPool_cases he).2.2
  case prev =>
    intro x e he hprev
    obtain ⟨hxq, hxn, he⟩ := withoutPool_cases he
    obtain ⟨d, hd, hfree, hend⟩ := hl.prev x e he hprev
    refine ⟨d, ?_, hfree, hend⟩
    rw [withoutPool_of_ne, hd]
    · intro heq
      rw [heq, h.first] at hd
      cases hd
      exact hxn (by rw [← hend, heq])
    · intro heq
      rw [heq, h.next] at hd
      cases hd
      exact hl.size_of_free h.next hfree h.last

theorem Marked.removePool (hm : Marked pools H) (hl : Laid pools H) (hr : r ∈ pools)
    (h : Vacant r H b n) :
    Marked (pools.filter (· ≠ r)) (withoutPool H (r.base + 8) (r.base + 8 + b.size + 8)) := by
  constructor
  case marked =>
    exact fun x e m he hfree hm' =>
      hm.marked x e m (withoutPool_cases he).2.2 hfree (withoutPool_cases hm').2.2
  case first =>
    intro r' hr'
    obtain ⟨hr', hne⟩ := List.mem_filter.mp hr'
    obtain ⟨f, hf, hprev⟩ := hm.first r' hr'
    have hroom := hm.room r hr
    refine ⟨f, ?_, hprev⟩
    rw [withoutPool_of_ne, hf]
    · intro heq
      refine of_decide_eq_true hne (hm.pool_unique hl hr hr' (.inl ⟨by omega, ?_⟩))
      unfold Region.stop
      omega
    · exact hl.first_ne h.first (hl.size_of_free h.first h.free) hr'
  case last =>
    intro x e he hzero
    obtain ⟨-, hxn, he⟩ := withoutPool_cases he
    obtain ⟨r', hr', hstop⟩ := hm.last x e he hzero
    refine ⟨r', List.mem_filter.mpr ⟨hr', decide_eq_true ?_⟩, hstop⟩
    rintro rfl
    exact hxn (hstop.trans (h.stop hl hm hr).symm)
  case room => exact fun r' hr' => hm.room r' (List.mem_of_mem_filter hr')

theorem Vacant.usedSize (h : Vacant r H b n) :
    usedSize (withoutPool H (r.base + 8) (r.base + 8 + b.size + 8)) = usedSize H := by
  funext x
  by_cases hxn : x = r.base + 8 + b.size + 8
  · rw [usedSize_none (by rw [hxn, withoutPool, Function.update_self]), hxn, Tlsf.usedSize, h.next,
      Option.bind_some, if_neg]
    exact fun hused => hused.2 h.last
  · by_cases hxq : x = r.base + 8
    · rw [hxq, usedSize_free h.first h.free, usedSize_none]
      rw [withoutPool, Function.update_of_ne (by omega), Function.update_self]
    · rw [Tlsf.usedSize, withoutPool_of_ne hxq hxn]
      rfl

theorem FreePair.of_removePool {next : Nat} (h : FreePair (withoutPool H q next) x) :
    FreePair H x := by
  obtain ⟨e, m, he, hefree, hm, hmfree⟩ := h
  exact ⟨e, m, (withoutPool_cases he).2.2, hefree, (withoutPool_cases hm).2.2, hmfree⟩

end OldPool

end Gpcl.Tlsf
