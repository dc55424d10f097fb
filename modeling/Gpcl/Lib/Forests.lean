import Mathlib.Logic.Function.Basic

/-! # Forests of named nodes

A node has a name, a label, and a forest below it. A node is found by its name, wherever it is, and
gets another label and another forest below, is taken out, or gets one more node below it. Every
property that counts nodes is a `sum` over the forest, and `sum_set` and its like say what an
operation does to it. -/
namespace Gpcl.Lib.Forests

inductive Forest (N L : Type)
  | nil
  | node (name : N) (label : L) (below rest : Forest N L)

namespace Forest

variable {N N' L L' : Type}

/-- The sum over all nodes. -/
def sum (g : N → L → Nat) : Forest N L → Nat
  | nil => 0
  | node n l b r => g n l + sum g b + sum g r

def relabel (h : L → L') : Forest N L → Forest N L'
  | nil => nil
  | node n l b r => node n (h l) (relabel h b) (relabel h r)

def rename (ν : N → N') : Forest N L → Forest N' L
  | nil => nil
  | node n l b r => node (ν n) l (rename ν b) (rename ν r)

variable [DecidableEq N]

/-- The label of a node, and the forest below it. -/
def find? (n : N) : Forest N L → Option (L × Forest N L)
  | nil => none
  | node m l b r => if n = m then some (l, b) else (find? n b).or (find? n r)

/-- The node gets another label and another forest below. -/
def set : Forest N L → N → L → Forest N L → Forest N L
  | nil, _, _, _ => nil
  | node m k c r, n, l, b => if n = m then node m l b r else node m k (c.set n l b) (r.set n l b)

def erase (n : N) : Forest N L → Forest N L
  | nil => nil
  | node m k c r => if n = m then r else node m k (erase n c) (erase n r)

/-- A new node below the node `h`. -/
def plant : Forest N L → N → N → L → Forest N L → Forest N L
  | nil, _, _, _, _ => nil
  | node m k c r, h, n, l, b =>
    if h = m then node m k (node n l b c) r else node m k (c.plant h n l b) (r.plant h n l b)

/-- A new node, below another one or beside all. -/
def add (f : Forest N L) (home : Option N) (n : N) (l : L) (b : Forest N L) : Forest N L :=
  match home with
  | none => node n l b f
  | some h => f.plant h n l b

def occurs (m : N) (f : Forest N L) : Nat := f.sum fun n _ => if n = m then 1 else 0

def Distinct (f : Forest N L) : Prop := ∀ m, f.occurs m ≤ 1

/-- `m` is somewhere below `n`. -/
def Inside (f : Forest N L) (m n : N) : Prop := ∃ x, f.find? n = some x ∧ 0 < x.2.occurs m

instance (f : Forest N L) (m n : N) : Decidable (f.Inside m n) :=
  decidable_of_iff (∃ x ∈ f.find? n, 0 < x.2.occurs m) Iff.rfl

section
variable {f b c d : Forest N L} {g : N → L → Nat} {l k : L} {m n h : N} {home : Option N}
    {x : L × Forest N L}

omit [DecidableEq N] in
theorem sum_mono {g g' : N → L → Nat} (hg : ∀ n l, g n l ≤ g' n l) (f : Forest N L) :
    f.sum g ≤ f.sum g' := by
  induction f with
  | nil => exact Nat.le_refl 0
  | node n l b r ihb ihr =>
    have hn := hg n l
    simp only [sum]
    omega

omit [DecidableEq N] in
@[simp] theorem sum_relabel (h : L → L') (g : N → L' → Nat) (f : Forest N L) :
    (f.relabel h).sum g = f.sum fun n l => g n (h l) := by
  induction f with
  | nil => rfl
  | node n l b r ihb ihr => simp only [relabel, sum, ihb, ihr]

omit [DecidableEq N] in
@[simp] theorem sum_rename (ν : N → N') (g : N' → L → Nat) (f : Forest N L) :
    (f.rename ν).sum g = f.sum fun n l => g (ν n) l := by
  induction f with
  | nil => rfl
  | node n l b r ihb ihr => simp only [rename, sum, ihb, ihr]

@[simp] theorem occurs_nil (m : N) : (nil : Forest N L).occurs m = 0 := rfl

theorem occurs_node (n : N) (l : L) (b r : Forest N L) (m : N) :
    (node n l b r).occurs m = (if n = m then 1 else 0) + b.occurs m + r.occurs m := rfl

@[simp] theorem occurs_relabel (h : L → L') (f : Forest N L) (m : N) :
    (f.relabel h).occurs m = f.occurs m := by
  simp [occurs]

/-! ## Nodes that are not there -/

theorem find?_eq_none_iff : f.find? m = none ↔ f.occurs m = 0 := by
  induction f with
  | nil => exact iff_of_true rfl rfl
  | node n l b r ihb ihr =>
    rw [find?, occurs_node]
    by_cases hm : m = n
    · rw [if_pos hm, if_pos hm.symm]
      exact iff_of_false nofun (by omega)
    · rw [if_neg hm, if_neg (Ne.symm hm), Option.or_eq_none_iff, ihb, ihr]
      omega

theorem occurs_pos_iff : 0 < f.occurs m ↔ ∃ x, f.find? m = some x := by
  rw [Nat.pos_iff_ne_zero, Ne, ← find?_eq_none_iff, ← Ne, Option.ne_none_iff_exists']

theorem occurs_pos (hx : f.find? n = some x) : 0 < f.occurs n := occurs_pos_iff.mpr ⟨x, hx⟩

theorem set_of_occurs (hn : f.occurs n = 0) : f.set n l b = f := by
  induction f with
  | nil => rfl
  | node m k c r ihc ihr =>
    rw [occurs_node] at hn
    have hne : n ≠ m := by
      rintro rfl
      simp at hn
    rw [set, if_neg hne, ihc (by omega), ihr (by omega)]

theorem plant_of_occurs (hh : f.occurs h = 0) : f.plant h n l b = f := by
  induction f with
  | nil => rfl
  | node m k c r ihc ihr =>
    rw [occurs_node] at hh
    have hne : h ≠ m := by
      rintro rfl
      simp at hh
    rw [plant, if_neg hne, ihc (by omega), ihr (by omega)]

theorem erase_of_occurs (hn : f.occurs n = 0) : f.erase n = f := by
  induction f with
  | nil => rfl
  | node m k c r ihc ihr =>
    rw [occurs_node] at hn
    have hne : n ≠ m := by
      rintro rfl
      simp at hn
    rw [erase, if_neg hne, ihc (by omega), ihr (by omega)]

/-! ## Sums -/

/-- Where a node is: in the first of the two forests, or only in the second. -/
theorem find?_node_of_ne (hne : n ≠ m) (hx : (node m k b f).find? n = some x)
    (hd : (node m k b f).occurs n ≤ 1) :
    (b.find? n = some x ∧ f.occurs n = 0) ∨ (b.occurs n = 0 ∧ f.find? n = some x) := by
  rw [find?, if_neg hne] at hx
  rw [occurs_node] at hd
  cases hb : b.find? n with
  | some y =>
    rw [hb, Option.some_or] at hx
    have hpos := occurs_pos hb
    exact .inl ⟨hx, by omega⟩
  | none =>
    rw [hb, Option.none_or] at hx
    exact .inr ⟨find?_eq_none_iff.mp hb, hx⟩

theorem occurs_below (hd : (node m k b f).occurs n ≤ 1) : b.occurs n ≤ 1 ∧ f.occurs n ≤ 1 := by
  rw [occurs_node] at hd
  omega

theorem sum_set (hd : f.occurs n ≤ 1) (hx : f.find? n = some x) :
    (f.set n l b).sum g + (g n x.1 + x.2.sum g) = f.sum g + (g n l + b.sum g) := by
  induction f with
  | nil => cases hx
  | node m k c r ihc ihr =>
    by_cases hne : n = m
    · subst hne
      rw [find?, if_pos rfl] at hx
      cases hx
      rw [set, if_pos rfl, sum, sum]
      dsimp only
      omega
    · obtain ⟨hdc, hdr⟩ := occurs_below hd
      rw [set, if_neg hne, sum, sum]
      obtain ⟨hc, hr⟩ | ⟨hc, hr⟩ := find?_node_of_ne hne hx hd
      · have hsum := ihc hdc hc
        rw [set_of_occurs hr]
        omega
      · have hsum := ihr hdr hr
        rw [set_of_occurs hc]
        omega

theorem sum_erase (hd : f.occurs n ≤ 1) (hx : f.find? n = some x) :
    (f.erase n).sum g + (g n x.1 + x.2.sum g) = f.sum g := by
  induction f with
  | nil => cases hx
  | node m k c r ihc ihr =>
    by_cases hne : n = m
    · subst hne
      rw [find?, if_pos rfl] at hx
      cases hx
      rw [erase, if_pos rfl, sum]
      dsimp only
      omega
    · obtain ⟨hdc, hdr⟩ := occurs_below hd
      rw [erase, if_neg hne, sum, sum]
      obtain ⟨hc, hr⟩ | ⟨hc, hr⟩ := find?_node_of_ne hne hx hd
      · have hsum := ihc hdc hc
        rw [erase_of_occurs hr]
        omega
      · have hsum := ihr hdr hr
        rw [erase_of_occurs hc]
        omega

theorem sum_plant (hd : f.occurs h ≤ 1) (hh : 0 < f.occurs h) :
    (f.plant h n l b).sum g = f.sum g + (g n l + b.sum g) := by
  induction f with
  | nil => cases hh
  | node m k c r ihc ihr =>
    by_cases hne : h = m
    · rw [plant, if_pos hne, sum, sum, sum]
      omega
    · obtain ⟨hdc, hdr⟩ := occurs_below hd
      rw [occurs_node, if_neg (Ne.symm hne)] at hd hh
      rw [plant, if_neg hne, sum, sum]
      rcases Nat.eq_zero_or_pos (c.occurs h) with hc | hc
      · have hsum := ihr hdr (by omega)
        rw [plant_of_occurs hc]
        omega
      · have hsum := ihc hdc hc
        have hr : r.occurs h = 0 := by omega
        rw [plant_of_occurs hr]
        omega

theorem occurs_set (hd : f.occurs n ≤ 1) (hx : f.find? n = some x) (m : N) :
    (f.set n l b).occurs m + x.2.occurs m = f.occurs m + b.occurs m := by
  have hsum := sum_set (g := fun p _ => if p = m then 1 else 0) (l := l) (b := b) hd hx
  change (f.set n l b).occurs m + (_ + x.2.occurs m) = f.occurs m + (_ + b.occurs m) at hsum
  omega

theorem occurs_erase (hd : f.occurs n ≤ 1) (hx : f.find? n = some x) (m : N) :
    (f.erase n).occurs m + x.2.occurs m ≤ f.occurs m := by
  have hsum := sum_erase (g := fun p _ => if p = m then 1 else 0) hd hx
  change (f.erase n).occurs m + (_ + x.2.occurs m) = f.occurs m at hsum
  omega

/-- What is put below a node has been nowhere, or below it before. -/
theorem Distinct.set (hd : f.Distinct) (hx : f.find? n = some x)
    (hb : ∀ m, f.occurs m + b.occurs m ≤ 1 + x.2.occurs m) :
    (f.set n l b).Distinct := by
  intro m
  have hsum := occurs_set (l := l) (b := b) (hd n) hx m
  have hle := hb m
  omega

theorem Distinct.erase (hd : f.Distinct) (hx : f.find? n = some x) : (f.erase n).Distinct := by
  intro m
  have hle := occurs_erase (hd n) hx m
  have hm := hd m
  omega

/-- A node is not below itself. -/
theorem occurs_below_self (hd : f.occurs n ≤ 1) (hx : f.find? n = some x) : x.2.occurs n = 0 := by
  have hsum := sum_erase (g := fun m _ => if m = n then 1 else 0) hd hx
  rw [if_pos rfl] at hsum
  change _ + (1 + x.2.occurs n) = f.occurs n at hsum
  omega

theorem sum_le_of_find? (hx : f.find? n = some x) : x.2.sum g ≤ f.sum g := by
  induction f with
  | nil => cases hx
  | node m k c r ihc ihr =>
    rw [sum]
    by_cases hne : n = m
    · rw [find?, if_pos hne] at hx
      cases hx
      dsimp only
      omega
    · rw [find?, if_neg hne] at hx
      rcases Option.or_eq_some_iff.mp hx with hx | ⟨-, hx⟩
      · have hle := ihc hx
        omega
      · have hle := ihr hx
        omega

theorem label_le_of_find? (hx : f.find? n = some x) : g n x.1 ≤ f.sum g := by
  induction f with
  | nil => cases hx
  | node m k c r ihc ihr =>
    rw [sum]
    by_cases hne : n = m
    · rw [find?, if_pos hne] at hx
      cases hx
      dsimp only
      rw [hne]
      omega
    · rw [find?, if_neg hne] at hx
      rcases Option.or_eq_some_iff.mp hx with hx | ⟨-, hx⟩
      · have hle := ihc hx
        omega
      · have hle := ihr hx
        omega

theorem occurs_le_of_find? (hx : f.find? n = some x) (m : N) : x.2.occurs m ≤ f.occurs m :=
  sum_le_of_find? hx

/-! ## One operation after another -/

@[simp] theorem erase_set : (f.set n l b).erase n = f.erase n := by
  induction f with
  | nil => rfl
  | node m k c r ihc ihr =>
    by_cases hne : n = m
    · rw [set, if_pos hne, erase, erase, if_pos hne, if_pos hne]
    · rw [set, if_neg hne, erase, erase, if_neg hne, if_neg hne, ihc, ihr]

@[simp] theorem set_set : (f.set n l b).set n k c = f.set n k c := by
  induction f with
  | nil => rfl
  | node m k' c' r ihc ihr =>
    by_cases hne : n = m
    · simp [set, hne]
    · simp [set, hne, ihc, ihr]

theorem set_find? (hd : f.occurs n ≤ 1) (hx : f.find? n = some x) : f.set n x.1 x.2 = f := by
  induction f with
  | nil => cases hx
  | node m k c r ihc ihr =>
    by_cases hne : n = m
    · subst hne
      rw [find?, if_pos rfl] at hx
      cases hx
      rw [set, if_pos rfl]
    · obtain ⟨hdc, hdr⟩ := occurs_below hd
      rw [set, if_neg hne]
      obtain ⟨hc, hr⟩ | ⟨hc, hr⟩ := find?_node_of_ne hne hx hd
      · rw [ihc hdc hc, set_of_occurs hr]
      · rw [ihr hdr hr, set_of_occurs hc]

/-- Two nodes, neither in what is put below the other one. -/
theorem set_comm (hmn : m ≠ n) (hmb : b.occurs m = 0) (hnc : c.occurs n = 0) :
    (f.set n l b).set m k c = (f.set m k c).set n l b := by
  induction f with
  | nil => rfl
  | node p a d r ihd ihr =>
    by_cases hn : n = p
    · have hm : m ≠ p := fun he => hmn (he.trans hn.symm)
      simp [set, hn, hm, set_of_occurs hmb]
    · by_cases hm : m = p
      · simp [set, hm, hn, set_of_occurs hnc]
      · simp [set, hm, hn, ihd, ihr]

theorem set_plant (hmn : m ≠ n) (hmh : m ≠ h) (hmb : b.occurs m = 0) (hhc : c.occurs h = 0) :
    (f.plant h n l b).set m k c = (f.set m k c).plant h n l b := by
  induction f with
  | nil => rfl
  | node p a d r ihd ihr =>
    by_cases hh : h = p
    · have hm : m ≠ p := fun he => hmh (he.trans hh.symm)
      simp [set, plant, hh, hm, hmn, set_of_occurs hmb]
    · by_cases hm : m = p
      · simp [set, plant, hm, hh, plant_of_occurs hhc]
      · simp [set, plant, hm, hh, ihd, ihr]

/-- A new node is set. -/
theorem set_plant_self (hn : f.occurs n = 0) : (f.plant h n l b).set n k c = f.plant h n k c := by
  induction f with
  | nil => rfl
  | node p a d r ihd ihr =>
    rw [occurs_node] at hn
    have hne : n ≠ p := by
      rintro rfl
      simp at hn
    by_cases hh : h = p
    · simp [set, plant, hh, hne, set_of_occurs (show r.occurs n = 0 by omega)]
    · simp [set, plant, hh, hne, ihd (by omega), ihr (by omega)]

/-! ## Finding a node after an operation -/

theorem find?_set_self (hn : 0 < f.occurs n) : (f.set n l b).find? n = some (l, b) := by
  induction f with
  | nil => cases hn
  | node m k c r ihc ihr =>
    by_cases hne : n = m
    · rw [set, if_pos hne, find?, if_pos hne]
    · rw [occurs_node, if_neg (Ne.symm hne)] at hn
      rw [set, if_neg hne, find?, if_neg hne]
      rcases Nat.eq_zero_or_pos (c.occurs n) with hc | hc
      · rw [set_of_occurs hc, find?_eq_none_iff.mpr hc, Option.none_or]
        exact ihr (by omega)
      · rw [ihc hc, Option.some_or]

/-- Another node, that was not below the one that is set and is not put there: the one that is set
may be below it. -/
theorem find?_set (hd : f.occurs n ≤ 1) (hmn : m ≠ n) (hb : b.occurs m = 0)
    (hbelow : ∀ x, f.find? n = some x → x.2.occurs m = 0) :
    (f.set n l b).find? m = (f.find? m).map fun y => (y.1, y.2.set n l b) := by
  induction f with
  | nil => rfl
  | node p a d r ihd ihr =>
    by_cases hn : n = p
    · subst hn
      have hr : r.occurs n = 0 := by
        rw [occurs_node, if_pos rfl] at hd
        omega
      have hnone : d.find? m = none :=
        find?_eq_none_iff.mpr (hbelow (a, d) (by rw [find?, if_pos rfl]))
      rw [set, if_pos rfl, find?, if_neg hmn, find?_eq_none_iff.mpr hb, Option.none_or, find?,
        if_neg hmn, hnone, Option.none_or]
      cases hy : r.find? m with
      | none => rfl
      | some y =>
        have hle := occurs_le_of_find? hy n
        rw [Option.map_some, set_of_occurs (show y.2.occurs n = 0 by omega)]
    · obtain ⟨hdd, hdr⟩ := occurs_below hd
      rw [set, if_neg hn, find?]
      by_cases hm : m = p
      · rw [if_pos hm, find?, if_pos hm, Option.map_some]
      · have hbelowd : ∀ x, d.find? n = some x → x.2.occurs m = 0 := by
          intro x hx
          exact hbelow x (by rw [find?, if_neg hn, hx, Option.some_or])
        have hbelowr : ∀ x, r.find? n = some x → x.2.occurs m = 0 := by
          intro x hx
          have hpos := occurs_pos hx
          have hnone : d.find? n = none := by
            rw [occurs_node] at hd
            exact find?_eq_none_iff.mpr (by omega)
          exact hbelow x (by rw [find?, if_neg hn, hnone, Option.none_or, hx])
        rw [if_neg hm, find?, if_neg hm, ihd hdd hbelowd, ihr hdr hbelowr, Option.map_or]

/-- What is put below a node is found there, when it has been nowhere else. -/
theorem find?_set_below (hn : f.occurs n ≤ 1) (hm : f.occurs m ≤ 1) (hx : f.find? n = some x)
    (hb : 0 < x.2.occurs m) : (f.set n l b).find? m = b.find? m := by
  have hmn : m ≠ n := by
    rintro rfl
    rw [occurs_below_self hn hx] at hb
    cases hb
  induction f with
  | nil => cases hx
  | node p a d r ihd ihr =>
    by_cases hp : n = p
    · rw [find?, if_pos hp] at hx
      cases hx
      have hmr : r.occurs m = 0 := by
        rw [occurs_node] at hm
        dsimp only at hb
        omega
      rw [set, if_pos hp, find?, if_neg fun he => hmn (he.trans hp.symm), find?_eq_none_iff.mpr hmr,
        Option.or_none]
    · have hmp : m ≠ p := by
        rintro rfl
        rw [occurs_node, if_pos rfl] at hm
        rw [find?, if_neg hp] at hx
        rcases Option.or_eq_some_iff.mp hx with hx | ⟨-, hx⟩
        · have hle := occurs_le_of_find? hx m
          omega
        · have hle := occurs_le_of_find? hx m
          omega
      obtain ⟨hnd, hnr⟩ := occurs_below hn
      obtain ⟨hmd, hmr⟩ := occurs_below hm
      rw [set, if_neg hp, find?, if_neg hmp]
      rw [occurs_node, if_neg (Ne.symm hmp)] at hm
      obtain ⟨hxd, hxr⟩ | ⟨hxd, hxr⟩ := find?_node_of_ne hp hx hn
      · have hle := occurs_le_of_find? hxd m
        rw [ihd hnd hmd hxd, set_of_occurs hxr,
          find?_eq_none_iff.mpr (show r.occurs m = 0 by omega), Option.or_none]
      · have hle := occurs_le_of_find? hxr m
        rw [set_of_occurs hxd, find?_eq_none_iff.mpr (show d.occurs m = 0 by omega), Option.none_or]
        exact ihr hnr hmr hxr

/-- A node below another one. -/
theorem find?_below (hd : f.Distinct) (hx : f.find? n = some x) (hb : 0 < x.2.occurs m) :
    f.find? m = x.2.find? m := by
  have hset := find?_set_below (l := x.1) (b := x.2) (hd n) (hd m) hx hb
  rw [set_find? (hd n) hx] at hset
  exact hset

/-- Of two nodes, one at most is below the other. -/
theorem inside_asymm (hd : f.Distinct) (hin : f.Inside m n) (hx : f.find? m = some x) :
    x.2.occurs n = 0 := by
  obtain ⟨y, hy, hpos⟩ := hin
  rw [find?_below hd hy hpos] at hx
  exact Nat.eq_zero_of_le_zero (occurs_below_self (hd n) hy ▸ occurs_le_of_find? hx n)

theorem Inside.occurs (hin : f.Inside m n) : 0 < f.occurs m := by
  obtain ⟨y, hy, hpos⟩ := hin
  exact Nat.lt_of_lt_of_le hpos (occurs_le_of_find? hy m)

theorem Inside.ne (hd : f.Distinct) (hin : f.Inside m n) : m ≠ n := by
  rintro rfl
  obtain ⟨y, hy, hpos⟩ := hin
  rw [occurs_below_self (hd m) hy] at hpos
  cases hpos

/-- What is inside a node stays there when another node is set, unless it was below that one. -/
theorem inside_set (hd : f.Distinct) (hin : f.Inside m n) (hne : n ≠ h) (hb : b.occurs n = 0)
    (hbelow : ∀ x, f.find? h = some x → x.2.occurs n = 0 ∧ x.2.occurs m = 0) :
    (f.set h l b).Inside m n := by
  obtain ⟨y, hy, hpos⟩ := hin
  have hfind := find?_set (l := l) (hd h) hne hb fun x hx => (hbelow x hx).1
  rw [hy, Option.map_some] at hfind
  refine ⟨_, hfind, ?_⟩
  dsimp only
  rcases Nat.eq_zero_or_pos (y.2.occurs h) with hzero | hh
  · rw [set_of_occurs hzero]
    exact hpos
  · obtain ⟨x, hx⟩ := occurs_pos_iff.mp hh
    have hx' := find?_below hd hy hh
    have hm := (hbelow x (hx'.trans hx)).2
    have hle := occurs_le_of_find? hy h
    have hsum := occurs_set (l := l) (b := b) (Nat.le_trans hle (hd h)) hx m
    omega

theorem find?_plant (hd : f.occurs h ≤ 1) (hmn : m ≠ n) (hb : b.occurs m = 0) :
    (f.plant h n l b).find? m = (f.find? m).map fun y =>
      (y.1, if m = h then node n l b y.2 else y.2.plant h n l b) := by
  induction f with
  | nil => rfl
  | node p a d r ihd ihr =>
    by_cases hh : h = p
    · subst hh
      rw [occurs_node, if_pos rfl] at hd
      rw [plant, if_pos rfl, find?]
      by_cases hm : m = h
      · rw [if_pos hm, find?, if_pos hm, Option.map_some, if_pos hm]
      · rw [if_neg hm, find?, if_neg hmn, find?_eq_none_iff.mpr hb, Option.none_or, find?,
          if_neg hm]
        cases hy : (d.find? m).or (r.find? m) with
        | none => rfl
        | some y =>
          have hle : y.2.occurs h = 0 := by
            rcases Option.or_eq_some_iff.mp hy with hy | ⟨-, hy⟩
            · have hle := occurs_le_of_find? hy h
              omega
            · have hle := occurs_le_of_find? hy h
              omega
          rw [Option.map_some, if_neg hm, plant_of_occurs hle]
    · obtain ⟨hdd, hdr⟩ := occurs_below hd
      rw [plant, if_neg hh, find?]
      by_cases hm : m = p
      · have hmh : m ≠ h := fun he => hh (he.symm.trans hm)
        rw [if_pos hm, find?, if_pos hm, Option.map_some, if_neg hmh]
      · rw [if_neg hm, find?, if_neg hm, ihd hdd, ihr hdr, Option.map_or]

theorem find?_plant_self (hh : 0 < f.occurs h) (hn : f.occurs n = 0) :
    (f.plant h n l b).find? n = some (l, b) := by
  induction f with
  | nil => cases hh
  | node p a d r ihd ihr =>
    rw [occurs_node] at hn
    have hne : n ≠ p := by
      rintro rfl
      simp at hn
    rw [plant]
    by_cases hp : h = p
    · rw [if_pos hp, find?, if_neg hne, find?, if_pos rfl, Option.some_or]
    · rw [occurs_node, if_neg (Ne.symm hp)] at hh
      rw [if_neg hp, find?, if_neg hne]
      rcases Nat.eq_zero_or_pos (d.occurs h) with hd | hd
      · rw [plant_of_occurs hd, find?_eq_none_iff.mpr (by omega), Option.none_or]
        exact ihr (by omega) (by omega)
      · rw [ihd hd (by omega), Option.some_or]

/-! ## A new node -/

/-- The home of a new node, if it has one, is there. -/
def Room (f : Forest N L) (home : Option N) : Prop := ∀ h, home = some h → 0 < f.occurs h

theorem sum_add (hd : f.Distinct) (hh : f.Room home) :
    (f.add home n l b).sum g = f.sum g + (g n l + b.sum g) := by
  cases home with
  | none =>
    rw [add, sum]
    omega
  | some h => exact sum_plant (hd h) (hh h rfl)

theorem find?_add_self (hh : f.Room home) (hn : f.occurs n = 0) :
    (f.add home n l b).find? n = some (l, b) := by
  cases home with
  | none => rw [add, find?, if_pos rfl]
  | some h => exact find?_plant_self (hh h rfl) hn

theorem occurs_add (hd : f.Distinct) (hh : f.Room home) (m : N) :
    (f.add home n l b).occurs m = f.occurs m + ((if n = m then 1 else 0) + b.occurs m) :=
  sum_add hd hh

theorem Distinct.add (hd : f.Distinct) (hh : f.Room home) (hn : f.occurs n = 0)
    (hbn : b.occurs n = 0)
    (hb : ∀ m, f.occurs m + b.occurs m ≤ 1) : (f.add home n l b).Distinct := by
  intro m
  rw [occurs_add hd hh]
  by_cases hm : n = m
  · exact Nat.le_of_eq (by rw [if_pos hm, ← hm, hn, hbn])
  · rw [if_neg hm, Nat.zero_add]
    exact hb m

/-- A node that the new one does not come below. -/
theorem find?_add (hd : f.Distinct) (hmn : m ≠ n) (hb : b.occurs m = 0)
    (hout : ∀ h, home = some h → h ≠ m ∧ ¬ f.Inside h m) :
    (f.add home n l b).find? m = f.find? m := by
  cases home with
  | none => rw [add, find?, if_neg hmn, find?_eq_none_iff.mpr hb, Option.none_or]
  | some h =>
    obtain ⟨hne, hinside⟩ := hout h rfl
    rw [add, find?_plant (hd h) hmn hb]
    cases hy : f.find? m with
    | none => rfl
    | some y =>
      have hzero : y.2.occurs h = 0 := by
        by_contra hpos
        exact hinside ⟨y, hy, Nat.pos_of_ne_zero hpos⟩
      rw [Option.map_some, if_neg hne.symm, plant_of_occurs hzero]

/-- A new node comes below a node. -/
theorem inside_plant (hd : f.occurs h ≤ 1) (hm : 0 < f.occurs m) (hmn : m ≠ n) (hb : b.occurs m = 0)
    (hin : h = m ∨ f.Inside h m) :
    (f.plant h n l b).Inside n m := by
  obtain ⟨y, hy⟩ := occurs_pos_iff.mp hm
  have hfind := find?_plant (l := l) hd hmn hb
  rw [hy, Option.map_some] at hfind
  refine ⟨_, hfind, ?_⟩
  dsimp only
  by_cases he : m = h
  · rw [if_pos he, occurs_node, if_pos rfl]
    omega
  · obtain ⟨z, hz, hpos⟩ := hin.resolve_left (Ne.symm he)
    obtain rfl : y = z := Option.some.inj (hy.symm.trans hz)
    have hle := occurs_le_of_find? hy h
    have hsum := sum_plant (g := fun p _ => if p = n then 1 else 0) (l := l) (b := b) (n := n)
      (show y.2.occurs h ≤ 1 by omega) hpos
    rw [if_pos rfl] at hsum
    change (y.2.plant h n l b).occurs n = y.2.occurs n + (1 + b.occurs n) at hsum
    rw [if_neg he]
    omega

theorem set_add (hmn : m ≠ n) (hmh : home ≠ some m) (hmb : b.occurs m = 0)
    (hhc : ∀ h, home = some h → c.occurs h = 0) :
    (f.add home n l b).set m k c = (f.set m k c).add home n l b := by
  cases home with
  | none => rw [add, set, if_neg hmn, set_of_occurs hmb, add]
  | some h => exact set_plant hmn (fun he => hmh (congrArg some he.symm)) hmb (hhc h rfl)

theorem set_add_self (hn : f.occurs n = 0) : (f.add home n l b).set n k c = f.add home n k c := by
  cases home with
  | none => rw [add, set, if_pos rfl, add]
  | some h => exact set_plant_self hn

/-! ## Sums that stay zero -/

theorem sum_set_eq_zero (hf : f.sum g = 0) (hl : g n l = 0) (hb : b.sum g = 0) :
    (f.set n l b).sum g = 0 := by
  induction f with
  | nil => rfl
  | node m k c r ihc ihr =>
    rw [sum] at hf
    by_cases hne : n = m
    · rw [set, if_pos hne, sum, ← hne]
      omega
    · have hc := ihc (by omega)
      have hr := ihr (by omega)
      rw [set, if_neg hne, sum]
      omega

theorem sum_erase_eq_zero (hf : f.sum g = 0) : (f.erase n).sum g = 0 := by
  induction f with
  | nil => rfl
  | node m k c r ihc ihr =>
    rw [sum] at hf
    by_cases hne : n = m
    · rw [erase, if_pos hne]
      omega
    · have hc := ihc (by omega)
      have hr := ihr (by omega)
      rw [erase, if_neg hne, sum]
      omega

theorem sum_add_eq_zero (hf : f.sum g = 0) (hl : g n l = 0) (hb : b.sum g = 0) :
    (f.add home n l b).sum g = 0 := by
  cases home with
  | none =>
    rw [add, sum]
    omega
  | some h =>
    show (f.plant h n l b).sum g = 0
    induction f with
    | nil => rfl
    | node m k c r ihc ihr =>
      rw [sum] at hf
      by_cases hne : h = m
      · rw [plant, if_pos hne, sum, sum]
        omega
      · have hc := ihc (by omega)
        have hr := ihr (by omega)
        rw [plant, if_neg hne, sum]
        omega

/-! ## Other labels -/

theorem find?_relabel (h : L → L') (f : Forest N L) (n : N) :
    (f.relabel h).find? n = (f.find? n).map fun x => (h x.1, x.2.relabel h) := by
  induction f with
  | nil => rfl
  | node m k c r ihc ihr =>
    rw [relabel, find?, find?]
    by_cases hne : n = m
    · rw [if_pos hne, if_pos hne, Option.map_some]
    · rw [if_neg hne, if_neg hne, ihc, ihr, Option.map_or]

theorem relabel_set (h : L → L') (f : Forest N L) (n : N) (l : L) (b : Forest N L) :
    (f.set n l b).relabel h = (f.relabel h).set n (h l) (b.relabel h) := by
  induction f with
  | nil => rfl
  | node m k c r ihc ihr =>
    by_cases hne : n = m
    · rw [set, if_pos hne, relabel, relabel, set, if_pos hne]
    · rw [set, if_neg hne, relabel, relabel, set, if_neg hne, ihc, ihr]

theorem relabel_erase (h : L → L') (f : Forest N L) (n : N) :
    (f.erase n).relabel h = (f.relabel h).erase n := by
  induction f with
  | nil => rfl
  | node m k c r ihc ihr =>
    by_cases hne : n = m
    · rw [erase, if_pos hne, relabel, erase, if_pos hne]
    · rw [erase, if_neg hne, relabel, relabel, erase, if_neg hne, ihc, ihr]

theorem relabel_add (g : L → L') (f : Forest N L) (home : Option N) (n : N) (l : L)
    (b : Forest N L) :
    (f.add home n l b).relabel g = (f.relabel g).add home n (g l) (b.relabel g) := by
  cases home with
  | none => rfl
  | some h =>
    show (f.plant h n l b).relabel g = (f.relabel g).plant h n (g l) (b.relabel g)
    induction f with
    | nil => rfl
    | node m k c r ihc ihr =>
      by_cases hne : h = m
      · rw [plant, if_pos hne, relabel, relabel, relabel, plant, if_pos hne]
      · rw [plant, if_neg hne, relabel, relabel, plant, if_neg hne, ihc, ihr]

end

end Forest

end Gpcl.Lib.Forests
