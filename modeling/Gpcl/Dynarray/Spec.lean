import Mathlib.Data.List.Induction
import Gpcl.Dynarray.Basic

/-! # Arrays and their elements

`Owns` ties a family of arrays to a heap: the buffer of an array holds its elements in
the first slots and nothing behind them, no two arrays share a buffer, and every
buffer belongs to an array. The family is the table of arrays and, under the key
`none`, the buffer that `reserve` keeps in its local variables. Each method is then
described by what it does to the elements of one array. -/
namespace Gpcl.Dynarray
open Lib.Memory Lib.Objects Lib.Objects.Heap
open Lib.Objects.Prog hiding pure bind

variable {α A : Type} {t : Traits α A}

abbrev Key := Option Nat

def fam (s : State α A) (x : Option (Dynarray A)) : Key → Option (Dynarray A)
  | none => x
  | some a => s.arrs a

/-- The array `d` has the elements `l`: its buffer has the recorded capacity and an allocator
equal to that of the array. -/
def Shape (t : Traits α A) (h : Heap α A) (d : Dynarray A) (l : List (Obj α)) : Prop :=
  match d.data with
  | none => l = [] ∧ d.size = 0 ∧ d.capacity = 0
  | some b => d.size = l.length ∧ l.length ≤ d.capacity ∧ d.capacity ≤ maxSize ∧
    ∃ al, t.equal d.alloc al = true ∧ h.bufs b = some ⟨al, row l (d.capacity - l.length)⟩

structure Owns (t : Traits α A) (h : Heap α A) (ds : Key → Option (Dynarray A))
    (ls : Key → List (Obj α)) : Prop where
  shape : ∀ k d, ds k = some d → Shape t h d (ls k)
  apart : ∀ k k' d d' b, ds k = some d → ds k' = some d' → d.data = some b → d'.data = some b →
    k = k'
  owned : ∀ b buf, h.bufs b = some buf → ∃ k d, ds k = some d ∧ d.data = some b

structure Inv (t : Traits α A) (s : State α A) (x : Option (Dynarray A)) (ls : Key → List (Obj α)) :
    Prop where
  ledger : s.heap.Ledger
  owns : Owns t s.heap (fam s x) ls
  fresh : ∀ a, s.nextArr ≤ a → s.arrs a = none

/-! ## One array -/

theorem shape_null {h : Heap α A} {d : Dynarray A} {l : List (Obj α)} (hd : d.data = none) :
    Shape t h d l ↔ l = [] ∧ d.size = 0 ∧ d.capacity = 0 := by
  simp only [Shape, hd]

theorem shape_some {h : Heap α A} {d : Dynarray A} {l : List (Obj α)} {b : Nat}
    (hd : d.data = some b) :
    Shape t h d l ↔ d.size = l.length ∧ l.length ≤ d.capacity ∧ d.capacity ≤ maxSize ∧
      ∃ al, t.equal d.alloc al = true ∧ h.bufs b = some ⟨al, row l (d.capacity - l.length)⟩ := by
  simp only [Shape, hd]

/-- Only the buffer of the array matters. -/
theorem Shape.congr {h h' : Heap α A} {d : Dynarray A} {l : List (Obj α)} (hs : Shape t h d l)
    (hb : ∀ b, d.data = some b → h'.bufs b = h.bufs b) : Shape t h' d l := by
  cases hd : d.data with
  | none => rw [shape_null hd] at hs ⊢; exact hs
  | some b => rw [shape_some hd, hb b hd]; exact (shape_some hd).mp hs

theorem data_cases (d : Dynarray A) : d.data = none ∨ ∃ b, d.data = some b := by
  cases d.data with
  | none => exact .inl rfl
  | some b => exact .inr ⟨b, rfl⟩

theorem Shape.size {h : Heap α A} {d : Dynarray A} {l : List (Obj α)} (hs : Shape t h d l) :
    d.size = l.length := by
  cases hd : d.data with
  | none => obtain ⟨rfl, hz, -⟩ := (shape_null hd).mp hs; exact hz
  | some b => exact ((shape_some hd).mp hs).1

theorem Shape.le_capacity {h : Heap α A} {d : Dynarray A} {l : List (Obj α)} (hs : Shape t h d l) :
    l.length ≤ d.capacity := by
  cases hd : d.data with
  | none => obtain ⟨rfl, -, -⟩ := (shape_null hd).mp hs; exact Nat.zero_le _
  | some b => exact ((shape_some hd).mp hs).2.1

theorem Shape.capacity_le {h : Heap α A} {d : Dynarray A} {l : List (Obj α)} (hs : Shape t h d l) :
    d.capacity ≤ maxSize := by
  cases hd : d.data with
  | none => rw [((shape_null hd).mp hs).2.2]; exact Nat.zero_le _
  | some b => exact ((shape_some hd).mp hs).2.2.1

/-- Two arrays over the same buffer, with allocators that compare equal. -/
structure Like (t : Traits α A) (e d : Dynarray A) : Prop where
  data : e.data = d.data
  size : e.size = d.size
  capacity : e.capacity = d.capacity
  alloc : t.equal e.alloc d.alloc = true

theorem Like.refl (d : Dynarray A) : Like t d d := ⟨rfl, rfl, rfl, t.equal_refl _⟩

theorem Shape.like {h : Heap α A} {e d : Dynarray A} {l : List (Obj α)} (hs : Shape t h d l)
    (hl : Like t e d) : Shape t h e l := by
  cases hd : d.data with
  | none =>
    rw [shape_null (hl.data.trans hd), hl.size, hl.capacity]
    exact (shape_null hd).mp hs
  | some b =>
    rw [shape_some (hl.data.trans hd), hl.size, hl.capacity]
    obtain ⟨h1, h2, h3, al, hal, hb⟩ := (shape_some hd).mp hs
    exact ⟨h1, h2, h3, al, t.equal_trans _ _ _ hl.alloc hal, hb⟩

/-! ## The family -/

section
variable {h h' : Heap α A} {ds : Key → Option (Dynarray A)} {ls : Key → List (Obj α)} {k k' : Key}
  {d d' e e' : Dynarray A} {b : Nat} {l : List (Obj α)}

/-- One array is replaced: the others keep their buffers, do not share the new one, and
with it own all buffers. -/
theorem Owns.replace (ho : Owns t h ds ls) (x : Option (Dynarray A))
    (hs : ∀ e, x = some e → Shape t h' e l)
    (hkeep : ∀ j e b, j ≠ k → ds j = some e → e.data = some b → h'.bufs b = h.bufs b)
    (hsep : ∀ j e b e', j ≠ k → ds j = some e → e.data = some b → x = some e' → e'.data ≠ some b)
    (hown : ∀ b buf, h'.bufs b = some buf →
      (∃ e, x = some e ∧ e.data = some b) ∨ ∃ j e, j ≠ k ∧ ds j = some e ∧ e.data = some b) :
    Owns t h' (Function.update ds k x) (Function.update ls k l) := by
  constructor
  case shape =>
    intro j e hj
    by_cases hjk : j = k
    · subst hjk
      rw [Function.update_self] at hj ⊢
      exact hs e hj
    · rw [Function.update_of_ne hjk] at hj ⊢
      exact (ho.shape j e hj).congr fun b he => hkeep j e b hjk hj he
  case apart =>
    intro i j e e' b hi hj hei hej
    by_cases hik : i = k <;> by_cases hjk : j = k
    · exact hik.trans hjk.symm
    · rw [hik, Function.update_self] at hi
      rw [Function.update_of_ne hjk] at hj
      exact absurd hei (hsep j e' b e hjk hj hej hi)
    · rw [hjk, Function.update_self] at hj
      rw [Function.update_of_ne hik] at hi
      exact absurd hej (hsep i e b e' hik hi hei hj)
    · rw [Function.update_of_ne hik] at hi
      rw [Function.update_of_ne hjk] at hj
      exact ho.apart i j e e' b hi hj hei hej
  case owned =>
    intro b buf hbuf
    rcases hown b buf hbuf with ⟨e, hx, he⟩ | ⟨j, e, hjk, hj, he⟩
    · exact ⟨k, e, by rw [Function.update_self]; exact hx, he⟩
    · exact ⟨j, e, by rw [Function.update_of_ne hjk]; exact hj, he⟩

/-- The arrays behind a key own the buffers that are not the one of that key. -/
theorem Owns.owned_ne (ho : Owns t h ds ls) (hk : ∀ d, ds k = some d → d.data ≠ some b)
    {buf : Buffer α A}
    (hb : h.bufs b = some buf) : ∃ j e, j ≠ k ∧ ds j = some e ∧ e.data = some b := by
  obtain ⟨j, e, hj, he⟩ := ho.owned b buf hb
  exact ⟨j, e, fun hjk => hk e (hjk ▸ hj) he, hj, he⟩

/-- An array at a key has a buffer that no other key has, and no buffer of that key is left
behind. -/
theorem Owns.own (ho : Owns t h ds ls)
    (hne : ∀ j e b', j ≠ k → ds j = some e → e.data = some b' → b' ≠ b)
    (hold : ∀ e b', ds k = some e → b' ≠ b → e.data ≠ some b') (hb' : d'.data = some b)
    (hoff : ∀ b', b' ≠ b → h'.bufs b' = h.bufs b') (hs : Shape t h' d' l) :
    Owns t h' (Function.update ds k (some d')) (Function.update ls k l) := by
  refine ho.replace (some d') (fun e he => Option.some.inj he ▸ hs) ?_ ?_ ?_
  · exact fun j e b' hjk hj he => hoff b' (hne j e b' hjk hj he)
  · intro j e b' e' hjk hj he hx hbb
    obtain rfl := Option.some.inj hx
    exact hne j e b' hjk hj he (Option.some.inj (hbb.symm.trans hb'))
  · intro b' buf hbuf
    by_cases hbb : b' = b
    · exact .inl ⟨d', rfl, hbb ▸ hb'⟩
    · exact .inr (ho.owned_ne (fun e he => hold e b' he hbb) (hoff b' hbb ▸ hbuf))

/-- The buffer of one array changes. -/
theorem Owns.set (ho : Owns t h ds ls) (hk : ds k = some d) (hb : d.data = some b)
    (hb' : d'.data = some b) (hoff : ∀ b', b' ≠ b → h'.bufs b' = h.bufs b') (hs : Shape t h' d' l) :
    Owns t h' (Function.update ds k (some d')) (Function.update ls k l) := by
  refine ho.own ?_ ?_ hb' hoff hs
  · intro j e b' hjk hj he hbb
    exact hjk (ho.apart j k e d b hj hk (hbb ▸ he) hb)
  · intro e b' he hbb hd
    rw [← Option.some.inj (hk.symm.trans he), hb] at hd
    exact hbb (Option.some.inj hd).symm

/-- A new buffer for a key without one. -/
theorem Owns.acquire (ho : Owns t h ds ls) (hk : ∀ d, ds k = some d → d.data = none)
    (hfree : h.bufs b = none) (hb' : d'.data = some b)
    (hoff : ∀ b', b' ≠ b → h'.bufs b' = h.bufs b') (hs : Shape t h' d' l) :
    Owns t h' (Function.update ds k (some d')) (Function.update ls k l) := by
  refine ho.own ?_ ?_ hb' hoff hs
  · rintro j e b' - hj he rfl
    obtain ⟨-, -, -, al, -, hbuf⟩ := (shape_some he).mp (ho.shape j e hj)
    rw [hfree] at hbuf; cases hbuf
  · intro e b' he _
    rw [hk e he]
    exact nofun

/-- An array without a buffer, or no array, at a key whose buffer is gone. -/
theorem Owns.drop (ho : Owns t h ds ls) (hkeep : ∀ j e b, j ≠ k → ds j = some e → e.data = some b →
      h'.bufs b = h.bufs b) (hgone : ∀ d b, ds k = some d → d.data = some b → h'.bufs b = none)
    (hsub : ∀ b buf, h'.bufs b = some buf → h.bufs b = some buf) (x : Option (Dynarray A))
    (hx : ∀ e, x = some e → e.data = none ∧ e.size = 0 ∧ e.capacity = 0) :
    Owns t h' (Function.update ds k x) (Function.update ls k []) := by
  refine ho.replace x (fun e he => (shape_null (hx e he).1).mpr ⟨rfl, (hx e he).2⟩) hkeep ?_ ?_
  · intro j e b e' _ _ _ he'
    rw [(hx e' he').1]
    exact nofun
  · intro b buf hbuf
    refine .inr (ho.owned_ne (fun e he hd => ?_) (hsub b buf hbuf))
    rw [hgone e b he hd] at hbuf; cases hbuf

/-- Two arrays exchange their buffers and elements. -/
theorem Owns.exchange (ho : Owns t h ds ls) (hk : ds k = some d) (hk' : ds k' = some d')
    (he : Like t e d')
    (he' : Like t e' d) : Owns t h (Function.update (Function.update ds k (some e)) k' (some e'))
      (Function.update (Function.update ls k (ls k')) k' (ls k)) := by
  -- where the array at a key of the new family comes from
  have hfrom : ∀ j g, Function.update (Function.update ds k (some e)) k' (some e') j = some g →
      ∃ i f, ds i = some f ∧ Like t g f ∧
        Function.update (Function.update ls k (ls k')) k' (ls k) j = ls i ∧
        i = if j = k' then k else if j = k then k' else j := by
    intro j g hj
    by_cases hjk' : j = k'
    · subst hjk'
      rw [Function.update_self] at hj ⊢
      exact ⟨k, d, hk, Option.some.inj hj ▸ he', rfl, by simp⟩
    · rw [Function.update_of_ne hjk'] at hj ⊢
      by_cases hjk : j = k
      · subst hjk
        rw [Function.update_self] at hj ⊢
        exact ⟨k', d', hk', Option.some.inj hj ▸ he, rfl, by simp [hjk']⟩
      · rw [Function.update_of_ne hjk] at hj ⊢
        exact ⟨j, g, hj, Like.refl g, rfl, by simp [hjk', hjk]⟩
  constructor
  case shape =>
    intro j g hj
    obtain ⟨i, f, hi, hl, hls, -⟩ := hfrom j g hj
    rw [hls]
    exact (ho.shape i f hi).like hl
  case apart =>
    intro j₁ j₂ g₁ g₂ b h₁ h₂ hb₁ hb₂
    obtain ⟨i₁, f₁, hi₁, hl₁, -, e₁⟩ := hfrom j₁ g₁ h₁
    obtain ⟨i₂, f₂, hi₂, hl₂, -, e₂⟩ := hfrom j₂ g₂ h₂
    have hi := ho.apart i₁ i₂ f₁ f₂ b hi₁ hi₂ (hl₁.data ▸ hb₁) (hl₂.data ▸ hb₂)
    rw [e₁, e₂] at hi
    by_cases a₁ : j₁ = k' <;> by_cases a₂ : j₂ = k' <;> by_cases c₁ : j₁ =
      k <;> by_cases c₂ : j₂ = k <;>
      simp_all
  case owned =>
    intro b buf hbuf
    obtain ⟨j, g, hj, hg⟩ := ho.owned b buf hbuf
    by_cases hjk : j = k
    · subst hjk
      obtain rfl := Option.some.inj (hk.symm.trans hj)
      exact ⟨k', e', Function.update_self .., he'.data.trans hg⟩
    · by_cases hjk' : j = k'
      · subst hjk'
        obtain rfl := Option.some.inj (hk'.symm.trans hj)
        refine ⟨k, e, ?_, he.data.trans hg⟩
        rw [Function.update_of_ne (Ne.symm hjk), Function.update_self]
      · exact ⟨j, g, by rw [Function.update_of_ne hjk', Function.update_of_ne hjk]; exact hj, hg⟩

end

/-! ## Steps of the state -/

section
variable {s : State α A} {x : Option (Dynarray A)} {ls : Key → List (Obj α)} {a b : Nat}
    {d : Dynarray A}

theorem fam_arr (h : Heap α A) (n : Nat) (x e : Option (Dynarray A)) :
    fam ⟨h, Function.update s.arrs a e, n⟩ x = Function.update (fam s x) (some a) e := by
  funext k
  cases k with
  | none => rw [Function.update_of_ne (by simp)]; rfl
  | some a' =>
    by_cases ha : a' = a
    · subst ha
      rw [Function.update_self]
      exact Function.update_self ..
    · rw [Function.update_of_ne (fun he => ha (Option.some.inj he))]
      exact Function.update_of_ne ha ..

theorem fam_local (x e : Option (Dynarray A)) : fam s e = Function.update (fam s x) none e := by
  funext k
  cases k with
  | none => rw [Function.update_self]; rfl
  | some a => rw [Function.update_of_ne (by simp)]; rfl

@[simp] theorem arr_apply (ha : s.arrs a = some d) : arr a s = .ok d s := by
  simp only [arr, ha]

theorem setArr_apply (a : Nat) (d : Dynarray A) (s : State α A) :
    setArr a d s = .ok () { s with arrs := Function.update s.arrs a (some d) } := rfl

theorem Inv.shape (hi : Inv t s x ls) (ha : s.arrs a = some d) : Shape t s.heap d (ls (some a)) :=
  hi.owns.shape (some a) d ha

theorem fresh_update {e : Option (Dynarray A)} (hf : ∀ a, s.nextArr ≤ a → s.arrs a = none)
    (ha : a < s.nextArr) : ∀ a', s.nextArr ≤ a' → Function.update s.arrs a e a' = none := by
  intro a' ha'
  rw [Function.update_of_ne (by omega)]
  exact hf a' ha'

theorem Inv.arr_lt (hi : Inv t s x ls) (ha : s.arrs a = some d) : a < s.nextArr := by
  refine Nat.lt_of_not_le fun hle => ?_
  rw [hi.fresh a hle] at ha; cases ha

theorem Owns.heap {h h' : Heap α A} {ds : Key → Option (Dynarray A)} (ho : Owns t h ds ls)
    (hb : h'.bufs = h.bufs) : Owns t h' ds ls :=
  ⟨fun k d hk => (ho.shape k d hk).congr fun b _ => by rw [hb], ho.apart, fun b buf hbuf =>
    ho.owned b buf (hb ▸ hbuf)⟩

theorem Inv.next (hi : Inv t s x ls) : Inv t { s with heap := s.heap.next.2 } x ls :=
  ⟨hi.ledger.next, hi.owns.heap rfl, hi.fresh⟩

/-- The buffer of an array that has room, and the same buffer with an element more or less. -/
theorem Inv.setRow (hi : Inv t s x ls) (ha : s.arrs a = some d) (hb : d.data = some b)
    {h : Heap α A} {al : A} {l : List (Obj α)} (hal : t.equal d.alloc al = true) (hl : h.Ledger)
    (hlen : l.length ≤ d.capacity)
    (hbufs : h.bufs = Function.update s.heap.bufs b (some ⟨al, row l (d.capacity - l.length)⟩)) :
    Inv t ⟨h, Function.update s.arrs a (some { d with size := l.length }), s.nextArr⟩ x
      (Function.update ls (some a) l) := by
  refine ⟨hl, ?_, fresh_update hi.fresh (hi.arr_lt ha)⟩
  rw [fam_arr]
  refine hi.owns.set (k := some a) ha hb hb (fun b' hne => ?_) ?_
  · rw [hbufs, Function.update_of_ne hne]
  · refine (shape_some (d := { d with size := l.length }) hb).mpr
      ⟨rfl, hlen, (hi.shape ha).capacity_le, al, hal, ?_⟩
    rw [hbufs, Function.update_self]

/-- What a method did to the table: one array is now `d`. -/
structure Sets (s s' : State α A) (a : Nat) (d : Dynarray A) : Prop where
  arrs : s'.arrs = Function.update s.arrs a (some d)
  nextArr : s'.nextArr = s.nextArr

theorem Sets.self {s' : State α A} (h : Sets s s' a d) : s'.arrs a = some d := by
  rw [h.arrs, Function.update_self]

theorem Sets.refl (ha : s.arrs a = some d) : Sets s s a d :=
  ⟨by rw [← ha, Function.update_eq_self], rfl⟩

theorem Sets.trans {s₁ s₂ : State α A} {d₁ d₂ : Dynarray A} (h₁ : Sets s s₁ a d₁)
    (h₂ : Sets s₁ s₂ a d₂) :
    Sets s s₂ a d₂ :=
  ⟨by rw [h₂.arrs, h₁.arrs, Function.update_idem], h₂.nextArr.trans h₁.nextArr⟩

/-- Another array is still there. -/
theorem Sets.fam_ne {s' : State α A} (h : Sets s s' a d) {k : Key} (hne : k ≠ some a) :
    fam s' x k = fam s x k := by
  cases k with
  | none => rfl
  | some b =>
    show s'.arrs b = s.arrs b
    rw [h.arrs, Function.update_of_ne (fun hb => hne (congrArg some hb))]

/-- An element constructed behind the last one, and counted. -/
theorem Inv.push (hi : Inv t s x ls) (ha : s.arrs a = some d) (hlt : d.size < d.capacity) (v : α) :
    ∃ h', (d.data.bind fun b => s.heap.construct b d.size v) = some h' ∧
      Inv t ⟨h', Function.update s.arrs a (some { d with size := d.size + 1 }), s.nextArr⟩ x
        (Function.update ls (some a) (ls (some a) ++ [⟨s.heap.nextObj, v⟩])) ∧
      h'.nextObj = s.heap.nextObj + 1 := by
  have hs := hi.shape ha
  generalize ls (some a) = l at hs ⊢
  rcases data_cases d with hd | ⟨b, hd⟩
  · rw [((shape_null hd).mp hs).2.2] at hlt; omega
  · obtain ⟨hsz, hle, hmax, al, hal, hbuf⟩ := (shape_some hd).mp hs
    obtain ⟨k, hk⟩ : ∃ k, d.capacity - l.length = k + 1 := ⟨d.capacity - l.length - 1, by omega⟩
    rw [hk] at hbuf
    have hcon := construct_row hbuf v
    rw [← hsz] at hcon
    have hinv := hi.setRow ha hd (l := l ++ [⟨s.heap.nextObj, v⟩]) hal
        (hi.ledger.construct hcon) (by
      rw [List.length_append, List.length_singleton]; omega) (by
      rw [List.length_append, List.length_singleton, show d.capacity - (l.length + 1) = k by omega])
    rw [List.length_append, List.length_singleton, ← hsz] at hinv
    exact ⟨_, by rw [hd]; exact hcon, hinv, rfl⟩

/-- One round of a loop that fills. -/
theorem Inv.append_spec (hi : Inv t s x ls) (ha : s.arrs a = some d) (hlt : d.size < d.capacity)
    (v : Arg α) :
    Post ((do construct t d.data d.size v; setArr a { d with size := d.size + 1 }) s)
      (fun _ s' => Inv t s' x (Function.update ls (some a)
        (ls (some a) ++ [⟨s.heap.nextObj, read t s v⟩])) ∧
        Sets s s' a { d with size := d.size + 1 } ∧ s'.heap.nextObj = s.heap.nextObj + 1)
      (fun s' => Inv t s' x ls ∧ s'.arrs = s.arrs ∧ s'.nextArr = s.nextArr) := by
  obtain ⟨h', hcon, hinv, hobj⟩ :=
    hi.next.push (s := { s with heap := s.heap.next.2 }) ha hlt (read t s v)
  by_cases hf : s.heap.fail s.heap.tick = true
  · have hrun : construct t d.data d.size v s = .thrown { s with heap := s.heap.next.2 } := by
      simp only [construct, hcon]
      exact if_pos hf
    rw [bind_thrown hrun]
    exact ⟨hi.next, rfl, rfl⟩
  · have hrun : construct t d.data d.size v s = .ok () { s with heap := h' } := by
      simp only [construct, hcon]
      exact if_neg hf
    rw [bind_ok hrun]
    exact ⟨hinv, ⟨rfl, rfl⟩, hobj⟩

theorem Inv.fillLoop_spec (xs : List (Arg α)) {s : State α A} {d : Dynarray A}
    {ls : Key → List (Obj α)} (hi : Inv t s x ls) (ha : s.arrs a = some d)
    (hfit : d.size + xs.length ≤ d.capacity) :
    Post (fillLoop t a xs s)
      (fun _ s' => ∃ os, os.length = xs.length ∧
        Inv t s' x (Function.update ls (some a) (ls (some a) ++ os)) ∧
        Sets s s' a { d with size := d.size + xs.length })
      (fun s' => ∃ os, os.length ≤ xs.length ∧
        Inv t s' x (Function.update ls (some a) (ls (some a) ++ os)) ∧
        Sets s s' a { d with size := d.size + os.length }) := by
  induction xs generalizing s d ls with
  | nil =>
    refine ⟨[], rfl, ?_, Sets.refl ha⟩
    rwa [List.append_nil, Function.update_eq_self]
  | cons v xs ih =>
    rw [List.length_cons] at hfit
    rw [fillLoop, bind_ok (arr_apply ha)]
    rw [← bind_assoc]
    refine Post.bind ((hi.append_spec ha (by omega) v).mono (fun _ _ => id) ?_) ?_
    · intro s₁ ⟨hi₁, harr, hnext⟩
      refine ⟨[], Nat.zero_le _, ?_, ⟨?_, hnext⟩⟩
      · rwa [List.append_nil, Function.update_eq_self]
      · rw [harr, List.length_nil, Nat.add_zero]
        exact (Sets.refl ha).arrs
    · rintro - s₁ ⟨hi₁, hset₁, -⟩
      -- the element just constructed comes first among the new ones
      have hstep : ∀ {s' os}, Inv t s' x (Function.update (Function.update ls (some a)
          (ls (some a) ++ [⟨s.heap.nextObj, read t s v⟩])) (some a) (Function.update ls (some a)
          (ls (some a) ++ [⟨s.heap.nextObj, read t s v⟩]) (some a) ++ os)) →
          Inv t s' x (Function.update ls (some a)
            (ls (some a) ++ ⟨s.heap.nextObj, read t s v⟩ :: os)) := by
        intro s' os hs'
        rwa [Function.update_idem, Function.update_self, List.append_assoc] at hs'
      refine (ih hi₁ hset₁.self (by dsimp only; omega)).mono ?_ ?_
      · rintro - s₂ ⟨os, hlen, hi₂, hset₂⟩
        refine ⟨_ :: os, by simp [hlen], hstep hi₂, ?_⟩
        have := hset₁.trans hset₂
        simpa only [List.length_cons, Nat.add_assoc, Nat.add_comm 1] using this
      · intro s₂ ⟨os, hlen, hi₂, hset₂⟩
        refine ⟨_ :: os, by simp [hlen], hstep hi₂, ?_⟩
        have := hset₁.trans hset₂
        simpa only [List.length_cons, Nat.add_assoc, Nat.add_comm 1] using this

/-- The loop of `keep_first_n` destroys from the end. -/
theorem Inv.destroyLoop_spec (os : List (Obj α)) {s : State α A} {d : Dynarray A}
    {ls : Key → List (Obj α)} (hi : Inv t s x ls) (ha : s.arrs a = some d) {l : List (Obj α)}
    (hl : ls (some a) = l ++ os) :
    ∃ s', destroyLoop a os.length s = .ok () s' ∧ Inv t s' x (Function.update ls (some a) l) ∧
      Sets s s' a { d with size := l.length } := by
  induction os using List.reverseRecOn generalizing s d ls with
  | nil =>
    rw [List.append_nil] at hl
    refine ⟨s, rfl, ?_, ?_⟩
    · rwa [← hl, Function.update_eq_self]
    · rw [← hl, ← (hi.shape ha).size]
      exact Sets.refl ha
  | append_singleton os o ih =>
    have hs := hi.shape ha
    rw [hl, ← List.append_assoc] at hs
    rcases data_cases d with hd | ⟨b, hd⟩
    · exact absurd ((shape_null hd).mp hs).1 (by simp)
    · obtain ⟨hsz, hle, -, al, hal, hbuf⟩ := (shape_some hd).mp hs
      rw [List.length_append, List.length_singleton] at hsz hle
      obtain ⟨h', hdes, hbufs⟩ : ∃ h', s.heap.destroy b (d.size - 1) = some h' ∧ h'.bufs =
          Function.update s.heap.bufs b
            (some ⟨al, row (l ++ os) (d.capacity - (l ++ os).length)⟩) := by
        have hdes := destroy_row hbuf
        rw [show d.capacity - (l ++ os ++ [o]).length + 1 = d.capacity - (l ++ os).length by
          simp only [List.length_append, List.length_singleton] at hle ⊢; omega] at hdes
        rw [hsz, Nat.add_sub_cancel]
        exact ⟨_, hdes, rfl⟩
      have hinv := hi.setRow ha hd hal (hi.ledger.destroy hdes) (by omega) hbufs
      have hrun : destroyAt d.data (d.size - 1) s = .ok () { s with heap := h' } := by
        simp only [destroyAt, onHeap, hd, Option.bind_some, hdes]
      obtain ⟨s', hloop, hi', hset⟩ :=
        ih hinv (Function.update_self ..) (by rw [Function.update_self])
      refine ⟨s', ?_, ?_, ?_⟩
      · rw [List.length_append, List.length_singleton, destroyLoop, bind_ok (arr_apply ha),
          bind_ok hrun, show d.size - 1 = (l ++ os).length by omega]
        exact hloop
      · rwa [Function.update_idem] at hi'
      · have hset₁ : Sets s ⟨h', _, s.nextArr⟩ a { d with size := (l ++ os).length } := ⟨rfl, rfl⟩
        exact hset₁.trans hset

theorem Inv.keepFirstN_spec (hi : Inv t s x ls) (ha : s.arrs a = some d) {n : Nat}
    (hn : n ≤ d.size) :
    ∃ s', keepFirstN a n s = .ok () s' ∧
    Inv t s' x (Function.update ls (some a) ((ls (some a)).take n)) ∧
      Sets s s' a { d with size := n } := by
  have hsz := (hi.shape ha).size
  obtain ⟨s', hloop, hi', hset⟩ := hi.destroyLoop_spec ((ls (some a)).drop n) ha
    (List.take_append_drop n (ls (some a))).symm
  refine ⟨s', ?_, hi', ?_⟩
  · rw [keepFirstN, bind_ok (arr_apply ha)]
    rw [List.length_drop, ← hsz] at hloop
    rw [bind_ok (assert_true hn s)]
    exact hloop
  · rwa [List.length_take, Nat.min_eq_left (hsz ▸ hn)] at hset

/-- The buffer of an array without elements, or a null pointer, goes back to the allocator. -/
theorem Inv.deallocate_spec (hi : Inv t s x ls) {k : Key} (hk : fam s x k = some d)
    (hl : ls k = []) :
    ∃ h', deallocate t d.alloc d.data d.capacity s = .ok () { s with heap := h' } ∧ h'.Ledger ∧
      ∀ y : Option (Dynarray A), (∀ e, y = some e → e.data = none ∧ e.size = 0 ∧ e.capacity = 0) →
        Owns t h' (Function.update (fam s x) k y) (Function.update ls k []) := by
  have hs := hi.owns.shape k d hk
  rw [hl] at hs
  rcases data_cases d with hd | ⟨b, hd⟩
  · refine ⟨s.heap, by rw [hd]; rfl, hi.ledger, fun y hy => ?_⟩
    refine hi.owns.drop (fun _ _ _ _ _ _ => rfl) (fun e b he hb => ?_) (fun _ _ => id) y hy
    rw [← Option.some.inj (hk.symm.trans he), hd] at hb; cases hb
  · obtain ⟨-, -, -, al, hal, hbuf⟩ := (shape_some hd).mp hs
    rw [List.length_nil, Nat.sub_zero] at hbuf
    have hdeal := deallocate_row hbuf hal
    refine ⟨_, ?_, hi.ledger.deallocate (fun i => by rw [at?_row hbuf]; rfl) hdeal, fun y hy => ?_⟩
    · simp only [deallocate, hd, onHeap, hdeal]
    · refine hi.owns.drop (fun j e b' hjk hj he => ?_) (fun e b' he hb' => ?_)
        (fun b' buf hb' => ?_) y hy
      · refine Function.update_of_ne (fun hbb => hjk ?_) ..
        exact hi.owns.apart j k e d b hj hk (hbb ▸ he) hd
      · obtain rfl := Option.some.inj (hk.symm.trans he)
        obtain rfl := Option.some.inj (hd.symm.trans hb')
        exact Function.update_self ..
      · dsimp only at hb'
        by_cases hbb : b' = b
        · subst hbb
          rw [Function.update_self] at hb'; cases hb'
        · rwa [Function.update_of_ne hbb] at hb'

theorem Inv.release_spec (hi : Inv t s x ls) (ha : s.arrs a = some d) :
    ∃ s', release t a s = .ok () s' ∧ Inv t s' x (Function.update ls (some a) []) ∧
      Sets s s' a ⟨d.alloc, none, 0, 0⟩ := by
  obtain ⟨s₁, hclear, hi₁, hset₁⟩ := hi.keepFirstN_spec ha (Nat.zero_le d.size)
  rw [List.take_zero] at hi₁
  have ha₁ := hset₁.self
  obtain ⟨h', hdeal, hled, howns⟩ := hi₁.deallocate_spec (k := some a) ha₁ (Function.update_self ..)
  refine ⟨⟨h', Function.update s₁.arrs a (some ⟨d.alloc, none, 0, 0⟩), s₁.nextArr⟩, ?_,
    ⟨hled, ?_, ?_⟩,
    hset₁.trans ⟨rfl, rfl⟩⟩
  · rw [release, bind_ok (show clear a s = .ok () s₁ from hclear), bind_ok (arr_apply ha₁),
      bind_ok hdeal]
    rfl
  · have := howns (some ⟨d.alloc, none, 0, 0⟩) fun e he => by
      obtain rfl := Option.some.inj he
      exact ⟨rfl, rfl, rfl⟩
    rw [Function.update_idem] at this
    rwa [fam_arr]
  · exact fresh_update hi₁.fresh (hi₁.arr_lt ha₁)

/-- An array without a buffer is gone. -/
theorem Inv.discarded (hi : Inv t s x ls) (ha : s.arrs a = some d) (hd : d.data = none) :
    Inv t { s with arrs := Function.update s.arrs a none } x (Function.update ls (some a) []) := by
  refine ⟨hi.ledger, ?_, fresh_update hi.fresh (hi.arr_lt ha)⟩
  rw [fam_arr]
  refine hi.owns.drop (fun _ _ _ _ _ _ => rfl) (fun e b he hb => ?_) (fun _ _ => id) none nofun
  obtain rfl := Option.some.inj (ha.symm.trans he)
  rw [hd] at hb; cases hb

/-- The destructor: the array is gone, and its elements with it. -/
theorem Inv.destruct_spec (hi : Inv t s x ls) (ha : s.arrs a = some d) :
    ∃ s', destruct t a s = .ok () s' ∧ Inv t s' x (Function.update ls (some a) []) ∧
      s'.arrs = Function.update s.arrs a none ∧ s'.nextArr = s.nextArr := by
  obtain ⟨s₁, hrel, hi₁, hset⟩ := hi.release_spec ha
  have hi₂ := hi₁.discarded hset.self rfl
  rw [Function.update_idem] at hi₂
  refine ⟨_, ?_, hi₂, ?_, hset.nextArr⟩
  · rw [destruct, bind_ok hrel]; rfl
  · rw [hset.arrs, Function.update_idem]

/-! ## Moving elements -/

/-- An element of any array is assigned to. -/
theorem Inv.setVal (hi : Inv t s x ls) {k : Key} {o : Dynarray A} (hk : fam s x k = some o)
    {j : Nat} {e : Obj α} (hj : (ls k)[j]? = some e) (v : α) :
    ∃ h', (o.data.bind fun b => s.heap.setVal b j v) = some h' ∧ h'.nextObj = s.heap.nextObj ∧
      Inv t { s with heap := h' } x (Function.update ls k ((ls k).set j { e with val := v })) := by
  have hs := hi.owns.shape k o hk
  rcases data_cases o with hd | ⟨b, hd⟩
  · rw [((shape_null hd).mp hs).1] at hj; cases hj
  · obtain ⟨hsz, hle, hmax, al, hal, hbuf⟩ := (shape_some hd).mp hs
    obtain ⟨h', hset, hbufs, hobj⟩ : ∃ h', s.heap.setVal b j v = some h' ∧
      h'.bufs = Function.update s.heap.bufs b
        (some ⟨al, row ((ls k).set j { e with val := v }) (o.capacity - (ls k).length)⟩) ∧
        h'.nextObj = s.heap.nextObj := ⟨_, setVal_row hbuf hj v, rfl, rfl⟩
    refine ⟨h', by rw [hd]; exact hset, hobj, hi.ledger.setVal hset, ?_, hi.fresh⟩
    have hshape : Shape t h' o ((ls k).set j { e with val := v }) := by
      rw [shape_some hd, List.length_set]
      exact ⟨hsz, hle, hmax, al, hal, by rw [hbufs, Function.update_self]⟩
    have hown := hi.owns.set hk hd hd
      (fun b' hne => by rw [hbufs, Function.update_of_ne hne]) hshape
    rwa [← hk, Function.update_eq_self] at hown

theorem Inv.read_ref (hi : Inv t s x ls) {k : Key} {o : Dynarray A} (hk : fam s x k = some o)
    {j : Nat} {e : Obj α} (hj : (ls k)[j]? = some e) : read t s (.ref o.data j) = e.val := by
  have hs := hi.owns.shape k o hk
  rcases data_cases o with hd | ⟨b, hd⟩
  · rw [((shape_null hd).mp hs).1] at hj; cases hj
  · obtain ⟨-, -, -, al, -, hbuf⟩ := (shape_some hd).mp hs
    simp only [read, hd, Option.bind_some, at?_row hbuf, hj, Option.map_some, Option.getD_some]

/-- One round of a loop that moves: an element of another array is moved behind the last one.
Only a move that is not `noexcept` throws. -/
theorem Inv.moveOne_spec (hi : Inv t s x ls) (ha : s.arrs a = some d) (hlt : d.size < d.capacity)
    {k : Key} {o : Dynarray A} (hk : fam s x k = some o) (hne : k ≠ some a) {j : Nat} {e : Obj α}
    (hj : (ls k)[j]? = some e) :
    Post ((do constructMove t d.data d.size o.data j; setArr a { d with size := d.size + 1 }) s)
      (fun _ s' => Inv t s' x (Function.update (Function.update ls (some a)
          (ls (some a) ++ [⟨s.heap.nextObj, e.val⟩])) k
            ((ls k).set j { e with val := t.movedFrom e.val })) ∧
        Sets s s' a { d with size := d.size + 1 })
      (fun s' => Inv t s' x ls ∧ s'.arrs = s.arrs ∧ s'.nextArr = s.nextArr ∧
        t.nothrowMove = false) := by
  have hread := hi.read_ref hk hj
  -- after the constructor, whichever heap it started from, the source is assigned to
  have hrest : ∀ h',
    Inv t ⟨h', Function.update s.arrs a (some { d with size := d.size + 1 }), s.nextArr⟩ x
      (Function.update ls (some a) (ls (some a) ++ [⟨s.heap.nextObj, e.val⟩])) →
      ∃ h'', assignAt o.data j (t.movedFrom e.val) { s with heap := h' } =
        .ok () { s with heap := h'' } ∧
        Inv t ⟨h'', Function.update s.arrs a (some { d with size := d.size + 1 }), s.nextArr⟩ x
          (Function.update (Function.update ls (some a)
            (ls (some a) ++ [⟨s.heap.nextObj, e.val⟩])) k
            ((ls k).set j { e with val := t.movedFrom e.val })) := by
    intro h' hinv
    have hk' :
        fam ⟨h', Function.update s.arrs a (some { d with size := d.size + 1 }),
            s.nextArr⟩ x k = some o := by
      rw [fam_arr, Function.update_of_ne hne]; exact hk
    have hlk : Function.update ls (some a) (ls (some a) ++ [⟨s.heap.nextObj, e.val⟩]) k = ls k :=
      Function.update_of_ne hne ..
    obtain ⟨h'', hset, -, hinv'⟩ :=
      hinv.setVal hk' (j := j) (e := e) (by rw [hlk]; exact hj) (t.movedFrom e.val)
    rw [hlk] at hinv'
    refine ⟨h'', ?_, hinv'⟩
    simp only [assignAt, onHeap, hset]
  have hdone : ∀ h',
    (if t.nothrowMove then onHeap fun h => d.data.bind fun b => h.construct b d.size e.val
      else construct t d.data d.size (.val e.val) : Action α A Unit) s =
        .ok () { s with heap := h' } →
      Inv t ⟨h', Function.update s.arrs a (some { d with size := d.size + 1 }), s.nextArr⟩ x
        (Function.update ls (some a) (ls (some a) ++ [⟨s.heap.nextObj, e.val⟩])) →
      ∃ h'', constructMove t d.data d.size o.data j s = .ok () { s with heap := h'' } ∧
        Inv t ⟨h'', Function.update s.arrs a (some { d with size := d.size + 1 }), s.nextArr⟩ x
          (Function.update (Function.update ls (some a)
            (ls (some a) ++ [⟨s.heap.nextObj, e.val⟩])) k
            ((ls k).set j { e with val := t.movedFrom e.val })) := by
    intro h' hmove hinv
    obtain ⟨h'', hassign, hinv'⟩ := hrest h' hinv
    refine ⟨h'', ?_, hinv'⟩
    unfold constructMove
    dsimp only
    rw [hread, bind_ok hmove]
    exact hassign
  by_cases hnm : t.nothrowMove = true
  · obtain ⟨h', hcon, hinv, -⟩ := hi.push ha hlt e.val
    obtain ⟨h'', hrun, hinv'⟩ := hdone h' (by rw [if_pos hnm]; simp only [onHeap, hcon]) hinv
    rw [bind_ok hrun]
    exact ⟨hinv', ⟨rfl, rfl⟩⟩
  · obtain ⟨h', hcon, hinv, -⟩ := hi.next.push (s := { s with heap := s.heap.next.2 }) ha hlt e.val
    by_cases hf : s.heap.fail s.heap.tick = true
    · have hrun :
          constructMove t d.data d.size o.data j s = .thrown { s with heap := s.heap.next.2 } := by
        have hmove :
            construct t d.data d.size (.val e.val) s =
              .thrown { s with heap := s.heap.next.2 } := by
          simp only [construct, read, hcon]
          exact if_pos hf
        unfold constructMove
        dsimp only
        rw [hread, if_neg hnm, bind_thrown hmove]
      rw [bind_thrown hrun]
      exact ⟨hi.next, rfl, rfl, Bool.eq_false_iff.mpr hnm⟩
    · obtain ⟨h'', hrun, hinv'⟩ := hdone h' (by
        rw [if_neg hnm]
        simp only [construct, read, hcon]
        exact if_neg hf) hinv
      rw [bind_ok hrun]
      exact ⟨hinv', ⟨rfl, rfl⟩⟩

theorem Inv.moveLoop_spec (n : Nat) {s : State α A} {d : Dynarray A} {ls : Key → List (Obj α)}
    (hi : Inv t s x ls) (ha : s.arrs a = some d) {k : Key} {o : Dynarray A}
    (hk : fam s x k = some o) (hne : k ≠ some a) (hcap : d.size + n ≤ d.capacity)
    (hlen : d.size + n ≤ (ls k).length) :
    Post (moveLoop t a o.data n s)
      (fun _ s' => ∃ ls', Inv t s' x ls' ∧ Sets s s' a { d with size := d.size + n })
      (fun s' => ∃ ls' m, Inv t s' x ls' ∧ Sets s s' a { d with size := m }) := by
  induction n generalizing s d ls with
  | zero => exact ⟨ls, hi, Sets.refl ha⟩
  | succ n ih =>
    obtain ⟨e, he⟩ : ∃ e, (ls k)[d.size]? = some e := ⟨_, List.getElem?_eq_getElem (by omega)⟩
    rw [moveLoop, bind_ok (arr_apply ha), ← bind_assoc]
    refine Post.bind ((hi.moveOne_spec ha (by omega) hk hne he).mono (fun _ _ => id) ?_) ?_
    · rintro s₁ ⟨hi₁, harr, hnext, -⟩
      exact ⟨ls, d.size, hi₁, ⟨by rw [harr]; exact (Sets.refl ha).arrs, hnext⟩⟩
    · rintro - s₁ ⟨hi₁, hset₁⟩
      refine (ih hi₁ hset₁.self (by rw [hset₁.fam_ne hne]; exact hk) (by dsimp only; omega) (by
        rw [Function.update_self, List.length_set]; dsimp only; omega)).mono ?_ ?_
      · rintro - s₂ ⟨ls', hi₂, hset₂⟩
        refine ⟨ls', hi₂, ?_⟩
        simpa only [Nat.add_assoc, Nat.add_comm 1] using hset₁.trans hset₂
      · intro s₂ ⟨ls', m, hi₂, hset₂⟩
        exact ⟨ls', m, hi₂, hset₁.trans hset₂⟩

end

end Gpcl.Dynarray
