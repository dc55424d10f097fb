import Gpcl.Lists.Spec

/-! # splice

`splice(pos, other, first, last)` takes the range out of its ring and puts it in front of `pos`.
Its writes are right for every range that is not empty. For an empty one, `last->prev_` is the
node in front of the range and no node of it: two rings are tied into one, or one ring falls
into two. The move operations splice whole lists, and an empty list is an empty range. -/
namespace Gpcl.Lists
open Lib.Rings

variable {J T A : Type} [DecidableEq J]

/-- The elements `j` to `k` of `other` in front of element `i` of `l`. -/
def spliced {α : Type} (l other : J) (i j k : Nat) (s : J → List α) : J → List α :=
  let rest := Function.update s other ((s other).take j ++ (s other).drop k)
  -- within one list the position moves with the elements behind the range
  let i := if l = other ∧ k ≤ i then i - (k - j) else i
  Function.update rest l ((rest l).take i ++ (((s other).drop j).take (k - j) ++ (rest l).drop i))

theorem map_spliced {α β : Type} (f : α → β) (l other : J) (i j k : Nat) (s : J → List α) (g : J) :
    (spliced l other i j k s g).map f = spliced l other i j k (fun g => (s g).map f) g := by
  have hrest : ∀ g, (Function.update s other ((s other).take j ++ (s other).drop k) g).map f =
      Function.update (fun g => (s g).map f) other
        (((s other).map f).take j ++ ((s other).map f).drop k) g := fun g => by
    by_cases hg : g = other
    · rw [hg, Function.update_self, Function.update_self, List.map_append, List.map_take,
        List.map_drop]
    · rw [Function.update_of_ne hg, Function.update_of_ne hg]
  unfold spliced
  dsimp only
  by_cases hg : g = l
  · rw [hg, Function.update_self, Function.update_self]
    simp only [List.map_append, List.map_take, List.map_drop, hrest]
  · rw [Function.update_of_ne hg, Function.update_of_ne hg, hrest]

theorem spliced_empty {α : Type} (l other : J) (i j : Nat) (s : J → List α) :
    spliced l other i j j s = s := by
  have hrest : Function.update s other ((s other).take j ++ (s other).drop j) = s := by
    rw [List.take_append_drop, Function.update_eq_self]
  unfold spliced
  dsimp only
  rw [hrest, Nat.sub_self, List.take_zero, List.nil_append, List.take_append_drop,
    Function.update_eq_self]

section links
variable {L : Links (Node J Nat)} {nodes : J → List Nat} {l other : J} {n : Nat}
    {us ms ws xs zs : List Nat}

theorem relink_eq {pos first last : Iter J}
    (h : (L.join (L.prev first) last).prev pos ≠ L.prev last) :
    relink pos first last L =
      ((L.join (L.prev first) last).join ((L.join (L.prev first) last).prev pos) first).join
        (L.prev last) pos := by
  unfold relink Links.join Links.setNext Links.setPrev at *
  dsimp only at *
  rw [Function.update_comm h.symm]

omit [DecidableEq J] in
theorem lastOf_append (h : J) (us ms : List Nat) (n : Nat) :
    lastOf h (us ++ n :: ms) = lastOf h (n :: ms) := by
  rcases List.eq_nil_or_concat ms with rfl | ⟨ms, m, rfl⟩
  · rw [lastOf_concat, lastOf_cons]; rfl
  · rw [List.concat_eq_append, ← List.cons_append, ← List.append_assoc, lastOf_concat,
      lastOf_concat]

/-- The writes for a range that is not empty. -/
theorem relink_family (hf : Family L nodes) (hcut : nodes other = us ++ (n :: ms ++ ws))
    (hpaste : Function.update nodes other (us ++ ws) l = xs ++ zs) :
    Family (relink (firstOf l zs) (firstOf other (n :: ms ++ ws)) (firstOf other ws) L)
      (Function.update (Function.update nodes other (us ++ ws)) l (xs ++ (n :: ms ++ zs))) := by
  have hprev : L.prev (firstOf other (n :: ms ++ ws)) = lastOf other us := (hf.adj hcut).2
  have hlast : L.prev (firstOf other ws) = lastOf other (n :: ms) := by
    rw [← lastOf_append other us]
    exact (hf.adj (show nodes other = (us ++ n :: ms) ++ ws by rw [hcut, List.append_assoc])).2
  have hpos : (L.join (lastOf other us) (firstOf other ws)).prev (firstOf l zs) = lastOf l xs :=
    ((hf.cut hcut).adj hpaste).2
  have hne : lastOf l xs ≠ lastOf other (n :: ms) := fun he => by
    obtain ⟨m, hm, hlm⟩ := exists_last other n ms
    have hmem := lastOf_mem l xs zs
    rw [he, hlm, node_mem_cycle, ← hpaste] at hmem
    have hd : (us ++ (n :: ms ++ ws)).Nodup := hcut ▸ hf.nodup other
    rw [Function.update_apply] at hmem
    split at hmem
    · rcases List.mem_append.mp hmem with hu | hw
      · exact List.disjoint_of_nodup_append hd hu (List.mem_append_left _ hm)
      · exact List.disjoint_of_nodup_append (List.nodup_append.mp hd).2.1 hm hw
    · next hlo =>
        exact hlo (hf.unique l other m hmem
          (hcut ▸ List.mem_append_right _ (List.mem_append_left _ hm)))
  rw [relink_eq (by rw [hprev, hpos, hlast]; exact hne), hprev, hpos, hlast, lastOf_cons]
  exact hf.splice hcut hpaste

/-- The writes for an empty range. -/
theorem relink_empty {p q pos first : Iter J} (hp : L.Adj p first) (hq : L.Adj q pos)
    (hne : pos ≠ first) :
    relink pos first first L = (L.join q first).join p pos := by
  have hpq : q ≠ p := fun he => hne (hq.1.symm.trans (he ▸ hp.1))
  have hjoin : L.join (L.prev first) first = L := Links.join_of_adj (hp.2 ▸ hp)
  rw [relink_eq (by rw [hjoin, hq.2, hp.2]; exact hpq), hjoin, hq.2, hp.2]

theorem relink_same {p first : Iter J} (hp : L.Adj p first) : relink first first first L = L := by
  have hprev : Function.update L.prev first p = L.prev := by rw [← hp.2, Function.update_eq_self]
  have hnext : Function.update L.next p first = L.next := by rw [← hp.1, Function.update_eq_self]
  unfold relink Links.setNext Links.setPrev
  simp only [hp.2, hprev, hnext]

omit [DecidableEq J] in
theorem getLastD_append_cons {α : Type} (as bs : List α) (a d : α) :
    (as ++ a :: bs).getLastD d = bs.getLastD a := by
  rcases List.eq_nil_or_concat bs with rfl | ⟨bs, b, rfl⟩
  · rw [List.getLastD_concat]; rfl
  · rw [List.concat_eq_append, ← List.cons_append, ← List.append_assoc, List.getLastD_concat,
      List.getLastD_concat]

/-- An empty range of another list ties the two rings together. -/
theorem relink_ties (hf : Family L nodes) (hl : l ≠ other) (hn : nodes l = xs ++ zs)
    (hn' : nodes other = us ++ ws) :
    Ring (relink (firstOf l zs) (firstOf other ws) (firstOf other ws) L) (.head other)
      (us.map .node ++ (zs.map .node ++ .head l :: xs.map .node ++ ws.map .node)) := by
  have hpos : firstOf l zs ∈ cycle l (nodes l) := hn ▸ firstOf_mem l xs zs
  have hq : lastOf l xs ∈ cycle l (nodes l) := hn ▸ lastOf_mem l xs zs
  have hfirst : firstOf other ws ∈ cycle other (nodes other) := hn' ▸ firstOf_mem other us ws
  have hp : lastOf other us ∈ cycle other (nodes other) := hn' ▸ lastOf_mem other us ws
  have hne : firstOf l zs ≠ firstOf other ws := ne_of_mem_of_not_mem hpos (hf.not_mem hl hfirst)
  have hr : Ring L (.head other) (us.map .node ++ ws.map .node) := by
    simpa [hn'] using hf.ring other
  have hr' : Ring L (.head l) (xs.map .node ++ zs.map .node) := by simpa [hn] using hf.ring l
  have hnodup :
      (Node.head other :: (us.map .node ++
          (zs.map .node ++ .head l :: xs.map .node ++ ws.map .node))).Nodup := by
    have hperm :
        (Node.head other :: (us.map .node ++
          (zs.map .node ++ .head l :: xs.map .node ++ ws.map .node))).Perm
        (cycle other (nodes other) ++ cycle l (nodes l)) := by
      rw [hn, hn', List.perm_iff_count]
      intro a
      simp only [cycle, List.map_append, List.cons_append, List.append_assoc, List.count_append,
        List.count_cons]
      omega
    refine hperm.nodup_iff.mpr
      (List.nodup_append'.mpr ⟨(hf.ring other).nodup, (hf.ring l).nodup, fun a ha ha' => ?_⟩)
    exact hf.not_mem hl ha ha'
  rw [relink_empty (hf.adj hn') (hf.adj hn) hne,
    Links.join_comm (ne_of_mem_of_not_mem hq (hf.not_mem hl hp)) hne.symm]
  have hopened := hr'.opened
  cases zs with
  | nil => exact hr.paste hopened hnodup
  | cons z zs =>
    have hring := hr.paste hopened hnodup
    rw [List.append_eq, getLastD_append_cons] at hring
    exact hring

/-- Within one list it cuts the ring in two, whichever side of the position it is on. -/
theorem relink_splits (hf : Family L nodes) (hn : nodes l = xs ++ (n :: ms ++ zs)) :
    Ring (relink (firstOf l (n :: ms ++ zs)) (firstOf l zs) (firstOf l zs) L) (.head l)
      ((xs ++ zs).map .node) ∧
      Ring (relink (firstOf l zs) (firstOf l (n :: ms ++ zs)) (firstOf l (n :: ms ++ zs)) L)
        (.head l) ((xs ++ zs).map .node) := by
  have hd : (xs ++ (n :: ms ++ zs)).Nodup := hn ▸ hf.nodup l
  have hfirst : L.Adj (lastOf l xs) (.node n) := hf.adj hn
  have hlast : L.Adj (lastOf l (n :: ms)) (firstOf l zs) := by
    rw [← lastOf_append l xs]
    exact hf.adj (show nodes l = (xs ++ n :: ms) ++ zs by rw [hn, List.append_assoc])
  have hne : Node.node n ≠ firstOf l zs :=
    firstOf_ne l (List.cons_ne_nil n ms) (List.nodup_append.mp hd).2.1
  have hne' : lastOf l xs ≠ lastOf l (n :: ms) := fun he => hne (hfirst.1.symm.trans (he ▸ hlast.1))
  -- the piece between the two places is left with a ring of its own
  have hring :
      Ring ((L.join (lastOf l xs) (firstOf l zs)).join (lastOf l (n :: ms)) (.node n)) (.head l)
        ((xs ++ zs).map .node) := by
    have hnot : ∀ m ∈ n :: ms, Node.node m ∉ cycle l (xs ++ zs) := fun m hm hmem => by
      rcases List.mem_append.mp (node_mem_cycle.mp hmem) with hx | hz
      · exact List.disjoint_of_nodup_append hd hx (List.mem_append_left _ hm)
      · exact List.disjoint_of_nodup_append (List.nodup_append.mp hd).2.1 hm hz
    have hcut := (hf.cut hn).ring l
    rw [Function.update_self] at hcut
    obtain ⟨m, hm, he⟩ := exists_last l n ms
    rw [he]
    exact hcut.join_of_not_mem (hnot m hm) (hnot n List.mem_cons_self)
  constructor
  · show Ring (relink (.node n) (firstOf l zs) (firstOf l zs) L) _ _
    rw [relink_empty hlast hfirst hne]
    exact hring
  · show Ring (relink (firstOf l zs) (.node n) (.node n) L) _ _
    rw [relink_empty hfirst hlast hne.symm, Links.join_comm hne'.symm hne]
    exact hring

end links

section ranges
variable {m : Mem J T A} {nodes : J → List Nat} {seq : J → List T} {l other : J}
    {us ms ws : List Nat} {i j k fuel : Nat}

omit [DecidableEq J] in
theorem length_take_drop {α : Type} {xs : List α} (hjk : j ≤ k) (hk : k ≤ xs.length) :
    ((xs.drop j).take (k - j)).length = k - j := by
  rw [List.length_take, List.length_drop]
  omega

omit [DecidableEq J] in
theorem exists_cons_between {α : Type} {xs : List α} (hjk : j < k) (hk : k ≤ xs.length) :
    ∃ x ys, (xs.drop j).take (k - j) = x :: ys := by
  refine List.exists_cons_of_ne_nil ?_
  rw [← List.length_pos_iff, length_take_drop hjk.le hk]
  omega

/-- The sizes of the two lists. -/
theorem length_spliced {α : Type} {s : J → List α} (hi : i ≤ (s l).length) (hjk : j ≤ k)
    (hk : k ≤ (s other).length) (hout : l = other → ¬(j ≤ i ∧ i < k)) (g : J) :
    (spliced l other i j k s g).length =
      if l = other then (s g).length
      else if g = l then (s l).length + (k - j) else if g = other then (s other).length - (k - j)
      else (s g).length := by
  unfold spliced
  by_cases hl : l = other
  · subst hl
    rw [if_pos rfl]
    by_cases hg : g = l
    · rw [hg, Function.update_self, Function.update_self]
      simp only [List.length_append, List.length_take, List.length_drop]
      have := hout rfl
      split <;> omega
    · rw [Function.update_of_ne hg, Function.update_of_ne hg]
  · rw [if_neg fun h => hl h.1, if_neg hl]
    by_cases hg : g = l
    · rw [hg, Function.update_self, Function.update_of_ne hl, if_pos rfl]
      simp only [List.length_append, List.length_take, List.length_drop]
      omega
    · rw [Function.update_of_ne hg, if_neg hg]
      split
      · next ho =>
        rw [ho, Function.update_self]
        simp only [List.length_append, List.length_take, List.length_drop]
        omega
      · next ho => rw [Function.update_of_ne ho]

/-- The position names the same node in the list and in what the range leaves of it. -/
theorem firstOf_position (hi : i ≤ (nodes l).length) (hjk : j ≤ k) (hk : k ≤ (nodes other).length)
    (hout : l = other → ¬(j ≤ i ∧ i < k)) :
    firstOf l ((Function.update nodes other ((nodes other).take j ++ (nodes other).drop k) l).drop
      (if l = other ∧ k ≤ i then i - (k - j) else i)) = firstOf l ((nodes l).drop i) := by
  by_cases hl : l = other
  · subst hl
    rw [Function.update_self]
    have hj : ((nodes l).take j).length = j := List.length_take_of_le (hjk.trans hk)
    by_cases hki : k ≤ i
    · rw [if_pos ⟨rfl, hki⟩, List.drop_append, hj, List.drop_eq_nil_of_le (by rw [hj]; omega),
        List.nil_append, List.drop_drop, show k + (i - (k - j) - j) = i by omega]
    · have hij : i < j := by
        by_contra hji
        exact hout rfl ⟨by omega, by omega⟩
      have hlt : i < (nodes l).length := by omega
      rw [if_neg fun h => hki h.2, List.drop_append_of_le_length (by rw [hj]; omega),
        List.drop_eq_getElem_cons (show i < ((nodes l).take j).length by rw [hj]; exact hij),
        List.getElem_take, List.drop_eq_getElem_cons hlt]
      rfl
  · rw [if_neg fun h => hl h.1, Function.update_of_ne hl]

/-- `std::distance` counts the range. -/
theorem distance_eq (hf : Family m.links nodes) (hn : nodes l = us ++ (ms ++ ws))
    (hfuel : ms.length < fuel) :
    distance fuel (firstOf l (ms ++ ws)) (firstOf l ws) m = some ms.length := by
  induction ms generalizing us fuel with
  | nil =>
    obtain ⟨fuel, rfl⟩ := Nat.exists_eq_succ_of_ne_zero (by omega : fuel ≠ 0)
    rw [List.nil_append, distance, if_pos rfl]
    rfl
  | cons n ms ih =>
    obtain ⟨fuel, rfl⟩ := Nat.exists_eq_succ_of_ne_zero (by omega : fuel ≠ 0)
    have hd : (us ++ (n :: ms ++ ws)).Nodup := hn ▸ hf.nodup l
    have hnext : m.links.next (firstOf l (n :: ms ++ ws)) = firstOf l (ms ++ ws) :=
      (hf.neighbours hn).2
    have htail := ih (show nodes l = (us ++ [n]) ++ (ms ++ ws) by rw [hn]; simp)
      (show ms.length < fuel by rw [List.length_cons] at hfuel; omega)
    rw [distance, if_neg (firstOf_ne l (List.cons_ne_nil n ms) (List.nodup_append.mp hd).2.1),
      hnext, htail]
    rfl

theorem relink_splits_at (hf : Family m.links nodes) (hij : i < j) (hj : j ≤ (nodes l).length) :
    Ring (relink (firstOf l ((nodes l).drop i)) (firstOf l ((nodes l).drop j))
      (firstOf l ((nodes l).drop j)) m.links) (.head l)
        (((nodes l).take i ++ (nodes l).drop j).map .node) ∧
      Ring (relink (firstOf l ((nodes l).drop j)) (firstOf l ((nodes l).drop i))
        (firstOf l ((nodes l).drop i)) m.links) (.head l)
        (((nodes l).take i ++ (nodes l).drop j).map .node) := by
  have hcut := split_three (nodes l) hij.le
  obtain ⟨n, ms, hms⟩ := exists_cons_between hij hj
  rw [hms] at hcut
  rw [drop_split (nodes l) hij.le, hms]
  exact relink_splits hf hcut

variable [DecidableEq A]

/-- The effect of `splice` on the memory. -/
theorem splice_eq (hf : Family m.links nodes) (halloc : m.alloc l = m.alloc other)
    (hn : nodes other = us ++ (ms ++ ws)) (hfuel : ms.length < fuel) (pos : Iter J) :
    splice fuel l pos other (firstOf other (ms ++ ws)) (firstOf other ws) m =
      some { m with
        links := relink pos (firstOf other (ms ++ ws)) (firstOf other ws) m.links
        size := fun g =>
          if l = other then m.size g
          else if g = l then m.size l + ms.length else if g = other then m.size other - ms.length
            else m.size g } := by
  unfold splice
  rw [if_pos halloc]
  by_cases hl : l = other
  · simp only [hl, ne_eq, not_true_eq_false, if_false, if_true, Option.map_some]
  · rw [if_pos hl, distance_eq hf hn hfuel]
    simp only [setSize, Option.map_some, if_neg hl, Function.update_of_ne hl]
    congr 2
    funext g
    simp only [Function.update_apply]

/-- `splice` of a range given by indices. -/
def spliceAt (fuel : Nat) (l : J) (i : Nat) (other : J) (j k : Nat) (m : Mem J T A) :
    Option (Mem J T A) :=
  splice fuel l (iter l i m) other (iter other j m) (iter other k m) m

/-- What the spliced lists hold follows from their rings. -/
theorem Rep.spliced_of_family (hr : Rep m nodes seq) (halloc : m.alloc l = m.alloc other)
    (hi : i ≤ (seq l).length) (hjk : j ≤ k) (hk : k ≤ (seq other).length)
    (hout : l = other → ¬(j ≤ i ∧ i < k)) (hfuel : (seq other).length < fuel) :
    ∃ m', spliceAt fuel l i other j k m = some m' ∧
      m'.links = relink (firstOf l ((nodes l).drop i)) (firstOf other ((nodes other).drop j))
        (firstOf other ((nodes other).drop k)) m.links ∧
      (Family m'.links (spliced l other i j k nodes) →
        Rep m' (spliced l other i j k nodes) (spliced l other i j k seq)) := by
  have hlen := hr.length l
  have hlen' := hr.length other
  have hcount := length_take_drop hjk (show k ≤ (nodes other).length by omega)
  have heq := splice_eq hr.family halloc (split_three (nodes other) hjk)
    (show _ < fuel by rw [hcount]; omega) (firstOf l ((nodes l).drop i))
  rw [hcount, ← drop_split _ hjk] at heq
  rw [← hr.iter (by omega), ← hr.iter (by omega), ← hr.iter (by omega)] at heq ⊢
  refine ⟨_, heq, rfl, fun hf => ⟨hf, fun g => ?_, hr.fresh, fun g => ?_⟩⟩
  · rw [map_spliced, map_spliced]
    exact congrArg (fun s => spliced l other i j k s g) (funext hr.values)
  · rw [length_spliced hi hjk hk hout]
    simp only [hr.size]

/-- The operation ends, with every list a ring of its own that holds the sequence given for it, and
its size. -/
def Gives (o : Option (Mem J T A)) (seq : J → List T) : Prop :=
  ∃ m', o = some m' ∧ ∃ nodes, Rep m' nodes seq

/-- The operation ends with the old sequence of `other` in `l`, with `other` empty, and with all
other lists as before. -/
def Moves (o : Option (Mem J T A)) (l other : J) (seq : J → List T) : Prop :=
  ∃ seq', Gives o seq' ∧ seq' l = seq other ∧ seq' other = [] ∧ ∀ g, g ≠ l → g ≠ other →
    seq' g = seq g

omit [DecidableEq A] in
theorem moves_iff_of_ne {o : Option (Mem J T A)} (hl : l ≠ other) :
    Moves o l other seq ↔
    Gives o (Function.update (Function.update seq l (seq other)) other []) := by
  constructor
  · rintro ⟨seq', hgives, htarget, hsource, hrest⟩
    have heq : seq' = Function.update (Function.update seq l (seq other)) other [] := by
      funext g
      by_cases hg : g = other
      · rw [hg, hsource, Function.update_self]
      · by_cases hgl : g = l
        · rw [hgl, htarget, Function.update_of_ne hl, Function.update_self]
        · rw [hrest g hgl hg, Function.update_of_ne hg, Function.update_of_ne hgl]
    rw [← heq]
    exact hgives
  · intro hgives
    refine ⟨_, hgives, ?_, Function.update_self _ _ _, fun g hgl hg => ?_⟩
    · rw [Function.update_of_ne hl, Function.update_self]
    · rw [Function.update_of_ne hg, Function.update_of_ne hgl]

omit [DecidableEq A] in
/-- A list cannot both keep its sequence and be empty, unless it was. -/
theorem moves_self_iff {o : Option (Mem J T A)} : Moves o l l seq ↔ seq l = [] ∧ Gives o seq := by
  constructor
  · rintro ⟨seq', hgives, htarget, hsource, hrest⟩
    have heq : seq' = seq := by
      funext g
      by_cases hg : g = l
      · rw [hg, htarget]
      · exact hrest g hg hg
    exact ⟨htarget.symm.trans hsource, heq ▸ hgives⟩
  · rintro ⟨hempty, hgives⟩
    exact ⟨seq, hgives, rfl, hempty, fun _ _ _ => rfl⟩

theorem Rep.spliceAt_nonempty (hr : Rep m nodes seq) (halloc : m.alloc l = m.alloc other)
    (hi : i ≤ (seq l).length) (hjk : j < k) (hk : k ≤ (seq other).length)
    (hout : l = other → ¬(j ≤ i ∧ i < k)) (hfuel : (seq other).length < fuel) :
    Gives (spliceAt fuel l i other j k m) (spliced l other i j k seq) := by
  obtain ⟨m', heq, hlinks, hrep⟩ := hr.spliced_of_family halloc hi hjk.le hk hout hfuel
  rw [← hr.length] at hi hk
  refine ⟨m', heq, _, hrep ?_⟩
  have hcut := split_three (nodes other) hjk.le
  obtain ⟨n, ms, hms⟩ := exists_cons_between hjk hk
  rw [hms] at hcut
  have hfamily :=
    relink_family (l := l) hr.family hcut
      (List.take_append_drop (if l = other ∧ k ≤ i then i - (k - j) else i) _).symm
  rw [firstOf_position hi hjk.le hk hout, ← hms, ← drop_split _ hjk.le, ← hlinks] at hfamily
  exact hfamily

/-- An empty range is right in front of itself only. -/
theorem Rep.spliceAt_empty_iff (hr : Rep m nodes seq) (halloc : m.alloc l = m.alloc other)
    (hi : i ≤ (seq l).length) (hj : j ≤ (seq other).length) (hfuel : (seq other).length < fuel) :
    Gives (spliceAt fuel l i other j j m) seq ↔ l = other ∧ i = j := by
  obtain ⟨m', heq, hlinks, hrep⟩ :=
    hr.spliced_of_family halloc hi le_rfl hj (fun _ h => absurd h.1 (by omega)) hfuel
  rw [spliced_empty, spliced_empty] at hrep
  constructor
  · intro ⟨m₁, heq₁, nodes', hr'⟩
    obtain rfl : m' = m₁ := Option.some.inj (heq.symm.trans heq₁)
    have hring := hr'.family.ring
    rw [hlinks] at hring
    by_cases hl : l = other
    · refine ⟨hl, ?_⟩
      subst hl
      by_contra hij
      have hlen := hr.length l
      have hlen' := hr'.length l
      -- the ring has lost what is between the two places
      rcases Nat.lt_or_gt_of_ne hij with hlt | hlt
      · have hlost := congrArg List.length
          ((hring l).unique (relink_splits_at hr.family hlt (by omega)).1)
        simp only [List.length_map, List.length_append, List.length_take, List.length_drop] at hlost
        omega
      · have hlost := congrArg List.length
          ((hring l).unique (relink_splits_at hr.family hlt (by omega)).2)
        simp only [List.length_map, List.length_append, List.length_take, List.length_drop] at hlost
        omega
    · have hties := relink_ties hr.family hl (List.take_append_drop i (nodes l)).symm
        (List.take_append_drop j (nodes other)).symm
      have hmem : Node.head l ∈ (nodes' other).map Node.node := by
        rw [(hring other).unique hties]
        simp
      obtain ⟨n, _, hn⟩ := List.mem_map.mp hmem
      cases hn
  · rintro ⟨rfl, rfl⟩
    refine ⟨m', heq, nodes, hrep ?_⟩
    rw [hlinks, relink_same (hr.family.adj (List.take_append_drop i (nodes l)).symm)]
    exact hr.family

/-- A whole list in front of the end of an empty one. -/
theorem Rep.spliceAll_iff (hr : Rep m nodes seq) (halloc : m.alloc l = m.alloc other)
    (hs : seq l = []) (hfuel : (seq other).length < fuel) :
    Gives (spliceAll fuel l (.head l) other m)
      (Function.update (Function.update seq l (seq other)) other []) ↔
      seq other ≠ [] ∨ l = other := by
  have hn : nodes l = [] := List.length_eq_zero_iff.mp ((hr.length l).trans (by rw [hs]; rfl))
  have hall :
      spliceAll fuel l (.head l) other m = spliceAt fuel l 0 other 0 (seq other).length m := by
    have hpos : Lists.iter l 0 m = .head l := by rw [hr.iter (Nat.zero_le _), hn]; rfl
    have hlast : Lists.iter other (seq other).length m = .head other := by
      rw [hr.iter (hr.length other).ge, ← hr.length, List.drop_length]
      rfl
    rw [spliceAll, spliceAt, hpos, hlast]
    rfl
  by_cases hne : seq other = []
  · have hseq : Function.update (Function.update seq l (seq other)) other [] = seq := by
      rw [hne, ← hs, Function.update_eq_self, hs, ← hne, Function.update_eq_self]
    rw [hall, hseq, hne, List.length_nil,
      hr.spliceAt_empty_iff halloc (Nat.zero_le _) (Nat.zero_le _) hfuel]
    simp
  · have hl : l ≠ other := fun he => hne (he ▸ hs)
    have hseq :
        spliced l other 0 0 (seq other).length seq =
          Function.update (Function.update seq l (seq other)) other [] := by
      unfold spliced
      simp only [hl, false_and, if_false, List.take_zero, List.drop_zero, List.nil_append,
        Nat.sub_zero, List.take_length, List.drop_length, Function.update_of_ne hl, hs,
        List.append_nil]
      exact Function.update_comm hl.symm _ _ _
    have hgives :=
      hr.spliceAt_nonempty halloc (Nat.zero_le _) (List.length_pos_iff.mpr hne) le_rfl
        (fun he => absurd he hl) hfuel
    rw [hall, ← hseq]
    exact iff_of_true hgives (.inl hne)

/-- The move constructor. -/
theorem Rep.moveConstruct_iff (hr : Rep m nodes seq) (hl : l ≠ other) (hs : seq l = [])
    (hfuel : (seq other).length < fuel) :
    Gives (moveConstruct fuel l other m)
      (Function.update (Function.update seq l (seq other)) other []) ↔ seq other ≠ [] := by
  have halloc :
      (Lists.construct l (m.alloc other) m).alloc l =
        (Lists.construct l (m.alloc other) m).alloc other := by
    show Function.update m.alloc l (m.alloc other) l =
      Function.update m.alloc l (m.alloc other) other
    rw [Function.update_self, Function.update_of_ne hl.symm]
  rw [moveConstruct, (hr.construct l hs (m.alloc other)).spliceAll_iff halloc hs hfuel]
  simp [hl]

variable {τ : Traits T A}

/-- The move assignment where it comes to `splice`. -/
theorem Rep.clear_spliceAll_iff (hr : Rep m nodes seq) (halloc : m.alloc l = m.alloc other)
    (hfuel : (seq l).length < fuel) (hfuel' : (seq other).length < fuel) :
    Gives ((Lists.clear fuel l m).bind (spliceAll fuel l (.head l) other))
      (Function.update (Function.update seq l (seq other)) other []) ↔
      seq other ≠ [] ∨ l = other := by
  obtain ⟨m₁, heq, hr₁, ha⟩ := hr.clear l hfuel
  rw [heq, Option.bind_some]
  by_cases hl : l = other
  · subst hl
    have hempty : Function.update seq l [] l = [] := Function.update_self _ _ _
    have hiff := hr₁.spliceAll_iff rfl hempty
      (show _ < fuel by rw [hempty]; exact Nat.zero_lt_of_lt hfuel)
    simp only [Function.update_idem, or_true, iff_true] at hiff ⊢
    exact hiff
  · have hiff := hr₁.spliceAll_iff (show m₁.alloc l = m₁.alloc other by rw [ha]; exact halloc)
      (Function.update_self _ _ _)
      (by rw [Function.update_of_ne (Ne.symm hl)]; exact hfuel')
    rw [Function.update_of_ne (Ne.symm hl), Function.update_idem] at hiff
    exact hiff

theorem Rep.moveAssign_iff (hr : Rep m nodes seq)
    (halloc : τ.propagateOnMoveAssignment = true ∨ m.alloc l = m.alloc other)
    (hfuel : (seq l).length < fuel) (hfuel' : (seq other).length < fuel) :
    Gives (moveAssign τ fuel l other m)
      (Function.update (Function.update seq l (seq other)) other []) ↔ seq other ≠ [] ∨
      l = other := by
  unfold moveAssign
  by_cases hp : τ.propagateOnMoveAssignment = true
  · obtain ⟨m₁, heq, hr₁, ha⟩ := hr.clear l hfuel
    rw [if_pos hp, heq, Option.map_some, Option.bind_some]
    obtain ⟨m₂, hm₂⟩ : ∃ m₂,
      m₂ = { m₁ with alloc := Function.update m₁.alloc l (m₁.alloc other) } := ⟨_, rfl⟩
    have hr₂ : Rep m₂ (Function.update nodes l []) (Function.update seq l []) := by
      rw [hm₂]
      exact ⟨hr₁.family, hr₁.values, hr₁.fresh, hr₁.size⟩
    have ha₂ : m₂.alloc l = m₂.alloc other := by
      rw [hm₂]
      show Function.update m₁.alloc l (m₁.alloc other) l =
        Function.update m₁.alloc l (m₁.alloc other) other
      rw [Function.update_self, Function.update_apply, ite_self]
    rw [← hm₂, if_pos ha₂]
    have hshort : ∀ g, (seq g).length < fuel → (Function.update seq l [] g).length < fuel :=
        fun g hg => by
      rw [Function.update_apply]
      split
      · exact Nat.zero_lt_of_lt hg
      · exact hg
    have hiff := hr₂.clear_spliceAll_iff ha₂ (hshort l hfuel) (hshort other hfuel')
    by_cases hl : l = other
    · subst hl
      simpa using hiff
    · rwa [Function.update_of_ne (Ne.symm hl), Function.update_idem] at hiff
  · have heq : m.alloc l = m.alloc other := halloc.resolve_left hp
    rw [if_neg hp, Option.bind_some, if_pos heq]
    exact hr.clear_spliceAll_iff heq hfuel hfuel'

theorem Rep.moves_moveAssign_iff (hr : Rep m nodes seq)
    (halloc : τ.propagateOnMoveAssignment = true ∨ m.alloc l = m.alloc other)
    (hfuel : (seq l).length < fuel) (hfuel' : (seq other).length < fuel) :
    Moves (moveAssign τ fuel l other m) l other seq ↔ (seq other ≠ [] ∧ l ≠ other) ∨
    (seq other = [] ∧ l = other) := by
  have hiff := hr.moveAssign_iff halloc hfuel hfuel'
  by_cases hl : l = other
  · subst hl
    rw [moves_self_iff]
    simp only [ne_eq, not_true_eq_false, and_false, and_true, false_or, and_iff_left_iff_imp]
    intro hempty
    have hkept : Function.update (Function.update seq l (seq l)) l [] = seq := by
      rw [Function.update_idem, ← hempty, Function.update_eq_self]
    rw [hkept] at hiff
    exact hiff.mpr (.inr rfl)
  · rw [moves_iff_of_ne hl, hiff]
    simp [hl]

/-- Splicing and moving transfer exactly a range, but for the empty one. A list that is moved to
itself is cleared. -/
theorem transfers_iff_nonempty (τ : Traits T A) (hr : Rep m nodes seq) (l other : J)
    (hfuel : (seq l).length < fuel) (hfuel' : (seq other).length < fuel) :
    (∀ i j k, i ≤ (seq l).length → j ≤ k → k ≤ (seq other).length → (l = other → ¬(j ≤ i ∧ i < k)) →
      m.alloc l = m.alloc other →
      (Gives (spliceAt fuel l i other j k m) (spliced l other i j k seq) ↔ j < k ∨
        (l = other ∧ i = j))) ∧
    (l ≠ other → seq l = [] → (Moves (moveConstruct fuel l other m) l other seq ↔ seq other ≠ [])) ∧
    (τ.propagateOnMoveAssignment = true ∨ m.alloc l = m.alloc other →
      (Moves (moveAssign τ fuel l other m) l other seq ↔ (seq other ≠ [] ∧ l ≠ other) ∨
        (seq other = [] ∧ l = other))) := by
  refine ⟨fun i j k hi hjk hk hout halloc => ?_, fun hl hs => ?_,
    fun halloc => hr.moves_moveAssign_iff halloc hfuel hfuel'⟩
  · rcases Nat.lt_or_eq_of_le hjk with hlt | rfl
    · exact iff_of_true (hr.spliceAt_nonempty halloc hi hlt hk hout hfuel') (.inl hlt)
    · rw [spliced_empty, hr.spliceAt_empty_iff halloc hi hk hfuel']
      exact (or_iff_right (Nat.lt_irrefl j)).symm
  · exact (moves_iff_of_ne hl).trans (hr.moveConstruct_iff hl hs hfuel')

end ranges

/-- Two lists, the second with an element. -/
def twoLists : Mem Bool Nat Unit := (emplace true (.head true) 1 (.empty ())).1

theorem rep_twoLists : ∃ nodes, Rep twoLists nodes (Function.update (fun _ => []) true [1]) :=
  ⟨_, (Rep.empty () : Rep (.empty () : Mem Bool Nat Unit) _ _).emplace (show _ = [] ++ [] from rfl)
    (show _ = [] ++ [] from rfl) rfl 1⟩

/-- The second list is moved to a new one, and back by an assignment. -/
theorem transfers_move_construct :
    Moves (moveConstruct 2 false true twoLists) false true
      (Function.update (fun _ => []) true [1]) ∧
    Moves (moveAssign ⟨true, true, id, 0, id⟩ 2 false true twoLists) false true
      (Function.update (fun _ => []) true [1]) := by
  obtain ⟨nodes, hr⟩ := rep_twoLists
  have h := transfers_iff_nonempty ⟨true, true, id, 0, id⟩ hr false true (show _ < 2 by decide)
    (show _ < 2 by decide)
  exact ⟨(h.2.1 nofun rfl).mpr nofun, (h.2.2 (.inl rfl)).mpr (.inl ⟨nofun, nofun⟩)⟩

/-- A list is move constructed from an empty one: the two heads become one ring. -/
theorem moveConstruct_of_empty : Rep (.empty () : Mem Bool Nat Unit) (fun _ => []) (fun _ => []) ∧
    ∀ fuel > 0, ¬ Gives (moveConstruct fuel false true (.empty () : Mem Bool Nat Unit))
      fun _ => [] := by
  refine ⟨.empty (), fun fuel hfuel hgives => ?_⟩
  have hseq :
      (fun _ => [] : Bool → List Nat) =
        Function.update (Function.update (fun _ => []) false []) true [] := by
    funext l
    cases l <;> rfl
  rw [hseq] at hgives
  exact ((Rep.empty ()).moveConstruct_iff Bool.false_ne_true rfl hfuel).mp hgives rfl

end Gpcl.Lists
