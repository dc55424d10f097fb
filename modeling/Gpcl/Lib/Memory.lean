import Mathlib.Algebra.Order.Ring.Int
import Mathlib.Data.List.Basic
import Mathlib.Logic.Function.Basic
import Mathlib.Tactic.Common

/-! # Byte memory

A memory is a function from addresses to bytes. Words are eight bytes, least
significant first, and may be loaded and stored at any address. Every fact
about two stores that do not meet goes through `loadWord_congr`: a load depends
on its eight bytes only. Regions are half-open address intervals, and
`Outside` states a frame: nothing changed except inside the listed regions. -/
namespace Gpcl.Lib.Memory

/-- A byte-addressed memory. -/
abbrev Mem := Nat → UInt8

/-- The size of a pointer and of a machine word, in bytes. -/
def wordSize : Nat := 8

/-- The number of addresses; pointers and sizes are below it. -/
def addressSpace : Nat := 2 ^ 64

theorem mod_addressSpace_lt (n : Nat) : n % addressSpace < addressSpace := Nat.mod_lt n (by decide)

theorem pos_of_wordSize_le {n : Nat} (h : wordSize ≤ n) : 0 < n := Nat.lt_of_lt_of_le (by decide) h

/-- The word of the eight bytes from `a` on. -/
def loadWord (m : Mem) (a : Nat) : Nat :=
  (m a).toNat + 2 ^ 8 * (m (a + 1)).toNat + 2 ^ 16 * (m (a + 2)).toNat +
    2 ^ 24 * (m (a + 3)).toNat + 2 ^ 32 * (m (a + 4)).toNat + 2 ^ 40 * (m (a + 5)).toNat +
    2 ^ 48 * (m (a + 6)).toNat + 2 ^ 56 * (m (a + 7)).toNat

/-- The word `v` written to the eight bytes from `a` on. -/
def storeWord (m : Mem) (a v : Nat) : Mem := fun x =>
  if a ≤ x ∧ x < a + wordSize then UInt8.ofNat (v / 2 ^ (8 * (x - a))) else m x

theorem loadWord_congr {m m' : Mem} {a : Nat}
    (h : ∀ x, a ≤ x → x < a + wordSize → m' x = m x) : loadWord m' a = loadWord m a := by
  unfold wordSize at h
  have hb : ∀ i, i < 8 → m' (a + i) = m (a + i) := fun i hi => h _ (by omega) (by omega)
  simp only [loadWord, hb 1 (by decide), hb 2 (by decide), hb 3 (by decide), hb 4 (by decide),
    hb 5 (by decide), hb 6 (by decide), hb 7 (by decide)]
  rw [show m' a = m a from hb 0 (by decide)]

theorem storeWord_outside {m : Mem} {a v x : Nat} (h : x < a ∨ a + wordSize ≤ x) :
    storeWord m a v x = m x := by
  unfold storeWord
  rw [if_neg (by omega)]

theorem loadWord_storeWord (m : Mem) (a : Nat) {v : Nat} (hv : v < addressSpace) :
    loadWord (storeWord m a v) a = v := by
  have hb : ∀ i, i < 8 → (storeWord m a v (a + i)).toNat = v / 2 ^ (8 * i) % 2 ^ 8 := by
    intro i hi
    unfold storeWord wordSize
    rw [if_pos (by omega), Nat.add_sub_cancel_left]
    simp
  have h0 : (storeWord m a v a).toNat = v % 2 ^ 8 := by simpa using hb 0 (by decide)
  simp only [loadWord, h0, hb 1 (by decide), hb 2 (by decide), hb 3 (by decide), hb 4 (by decide),
    hb 5 (by decide), hb 6 (by decide), hb 7 (by decide)]
  unfold addressSpace at hv
  omega

theorem loadWord_storeWord_apart {m : Mem} {a b v : Nat}
    (h : b + wordSize ≤ a ∨ a + wordSize ≤ b) : loadWord (storeWord m a v) b = loadWord m b :=
  loadWord_congr fun x hx hx' => storeWord_outside (by omega)

/-- Two words that do not meet may be stored in either order. -/
theorem storeWord_comm {m : Mem} {a b v v' : Nat} (h : b + wordSize ≤ a ∨ a + wordSize ≤ b) :
    storeWord (storeWord m a v) b v' = storeWord (storeWord m b v') a v := by
  funext x
  by_cases hb : x < b ∨ b + wordSize ≤ x
  · rw [storeWord_outside hb]
    unfold storeWord
    split
    · rfl
    · exact (if_neg (by omega)).symm
  · have ha : x < a ∨ a + wordSize ≤ x := by omega
    rw [storeWord_outside (a := a) ha]
    unfold storeWord
    rw [if_pos (by omega), if_pos (by omega)]

/-- The addresses from `base` on, `size` of them. -/
structure Region where
  base : Nat
  size : Nat
deriving DecidableEq, Repr

namespace Region

/-- The address after the last one of the region. -/
def stop (r : Region) : Nat := r.base + r.size

def Contains (r : Region) (x : Nat) : Prop := r.base ≤ x ∧ x < r.stop

def Inside (r r' : Region) : Prop := r'.base ≤ r.base ∧ r.stop ≤ r'.stop

def Disjoint (r r' : Region) : Prop := r.stop ≤ r'.base ∨ r'.stop ≤ r.base

instance (r : Region) (x : Nat) : Decidable (r.Contains x) := inferInstanceAs (Decidable (_ ∧ _))
instance (r r' : Region) : Decidable (r.Inside r') := inferInstanceAs (Decidable (_ ∧ _))
instance (r r' : Region) : Decidable (r.Disjoint r') := inferInstanceAs (Decidable (_ ∨ _))

theorem Disjoint.symm {r r' : Region} (h : r.Disjoint r') : r'.Disjoint r := Or.symm h

theorem Inside.refl (r : Region) : r.Inside r := ⟨Nat.le_refl _, Nat.le_refl _⟩

theorem Inside.contains {r r' : Region} {x : Nat} (h : r.Inside r') (hx : r.Contains x) :
    r'.Contains x := ⟨Nat.le_trans h.1 hx.1, Nat.lt_of_lt_of_le hx.2 h.2⟩

theorem Disjoint.mono {a a' b b' : Region} (h : a'.Disjoint b') (ha : a.Inside a')
    (hb : b.Inside b') : a.Disjoint b := by
  unfold Disjoint Inside at *
  omega

end Region

/-- Nothing but the bytes of the regions differs between the two memories. -/
def Outside (rs : List Region) (m m' : Mem) : Prop :=
  ∀ x, (∀ r ∈ rs, ¬ r.Contains x) → m' x = m x

theorem Outside.refl (rs : List Region) (m : Mem) : Outside rs m m := fun _ _ => rfl

theorem Outside.trans {rs : List Region} {m m' m'' : Mem} (h : Outside rs m m')
    (h' : Outside rs m' m'') : Outside rs m m'' := fun x hx => (h' x hx).trans (h x hx)

theorem Outside.mono {rs rs' : List Region} {m m' : Mem} (h : Outside rs m m')
    (hs : ∀ r ∈ rs, ∃ r' ∈ rs', r.Inside r') : Outside rs' m m' := by
  intro x hx
  refine h x fun r hr hc => ?_
  obtain ⟨r', hr', hi⟩ := hs r hr
  exact hx r' hr' (hi.contains hc)

theorem Outside.storeWord {rs : List Region} {m : Mem} {a v : Nat}
    (h : ∃ r ∈ rs, Region.Inside ⟨a, wordSize⟩ r) : Outside rs m (storeWord m a v) := by
  intro x hx
  obtain ⟨r, hr, hi⟩ := h
  refine storeWord_outside ?_
  have := mt hi.contains (hx r hr)
  simp only [Region.Contains, Region.stop] at this
  omega

/-- A word that meets none of the changed regions keeps its value. -/
theorem Outside.loadWord {rs : List Region} {m m' : Mem} {a : Nat} (h : Outside rs m m')
    (ha : ∀ r ∈ rs, Region.Disjoint ⟨a, wordSize⟩ r) : loadWord m' a = loadWord m a := by
  refine loadWord_congr fun x hx hx' => h x fun r hr hc => ?_
  have := ha r hr
  simp only [Region.Disjoint, Region.Contains, Region.stop] at this hc
  omega

/-! ## Byte strings -/

/-- The bytes of a region, in order. -/
def bytes (m : Mem) (r : Region) : List UInt8 := (List.range r.size).map fun i => m (r.base + i)

/-- `memmove`, and `memcpy` between ranges that do not meet. -/
def copyBytes (m : Mem) (dest src n : Nat) : Mem := fun x =>
  if dest ≤ x ∧ x < dest + n then m (src + (x - dest)) else m x

@[simp] theorem length_bytes (m : Mem) (r : Region) : (bytes m r).length = r.size := by simp [bytes]

theorem getElem?_bytes {m : Mem} {r : Region} {i : Nat} (h : i < r.size) :
    (bytes m r)[i]? = some (m (r.base + i)) := by
  simp [bytes, h]

/-- Byte strings are compared place by place. -/
theorem bytes_congr {m m' : Mem} {r r' : Region} (hs : r.size = r'.size)
    (h : ∀ i < r.size, m (r.base + i) = m' (r'.base + i)) : bytes m r = bytes m' r' := by
  unfold bytes
  rw [← hs]
  refine List.map_congr_left ?_
  intro i hi
  exact h i (List.mem_range.mp hi)

theorem bytes_append (m : Mem) (a k n : Nat) :
    bytes m ⟨a, k + n⟩ = bytes m ⟨a, k⟩ ++ bytes m ⟨a + k, n⟩ := by
  simp [bytes, List.range_add, Nat.add_assoc, Function.comp_def]

theorem bytes_drop (m : Mem) (a n k : Nat) (h : k ≤ n) :
    (bytes m ⟨a, n⟩).drop k = bytes m ⟨a + k, n - k⟩ := by
  obtain ⟨d, rfl⟩ := Nat.exists_eq_add_of_le h
  rw [bytes_append, List.drop_append_of_le_length (by simp), List.drop_of_length_le (by simp)]
  simp

/-- A byte outside the region does not matter. -/
theorem bytes_update_of_not_contains {m : Mem} {r : Region} {x : Nat} {v : UInt8}
    (h : ¬ r.Contains x) :
    bytes (Function.update m x v) r = bytes m r := by
  refine bytes_congr rfl ?_
  intro i hi
  refine Function.update_of_ne ?_ _ _
  intro he
  exact h ⟨by omega, by simp only [Region.stop]; omega⟩

theorem bytes_update {m : Mem} {a n i : Nat} {v : UInt8} :
    bytes (Function.update m (a + i) v) ⟨a, n⟩ = (bytes m ⟨a, n⟩).set i v := by
  refine List.ext_getElem? ?_
  intro k
  rw [List.getElem?_set]
  by_cases hk : k < n
  · rw [getElem?_bytes hk]
    by_cases hik : i = k
    · simp [hik, hk]
    · rw [if_neg hik, getElem?_bytes hk, Function.update_of_ne (by simp; omega)]
  · rw [List.getElem?_eq_none (by simpa using hk)]
    by_cases hik : i = k
    · simp [hik, hk]
    · rw [if_neg hik, List.getElem?_eq_none (by simpa using hk)]

theorem bytes_copyBytes (m : Mem) (dest src n : Nat) :
    bytes (copyBytes m dest src n) ⟨dest, n⟩ = bytes m ⟨src, n⟩ := by
  refine bytes_congr rfl ?_
  intro i hi
  dsimp only at hi ⊢
  rw [copyBytes, if_pos (by omega), Nat.add_sub_cancel_left]

end Gpcl.Lib.Memory
