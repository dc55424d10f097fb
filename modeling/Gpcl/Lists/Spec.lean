import Gpcl.Lists.Basic

/-! # What the operations of a list do

`Rep m nodes seq`: in the memory `m` each list has the ring of its `nodes`, which hold the values
of its `seq`. One lemma for each operation says what it does to both; a position in a list is a
split of its nodes, `firstOf l zs` being the iterator in front of `zs`. -/
namespace Gpcl.Lists
open Lib.Rings

variable {J T A : Type}

structure Rep (m : Mem J T A) (nodes : J → List Nat) (seq : J → List T) : Prop where
  family : Family m.links nodes
  values : ∀ l, (nodes l).map m.value = (seq l).map some
  fresh : ∀ n, m.used ≤ n → m.value n = none
  size : ∀ l, m.size l = (seq l).length

section rep
variable {m m' : Mem J T A} {nodes : J → List Nat} {seq : J → List T} {l : J} {n : Nat}
    {xs ms zs : List Nat} {ys vs ws : List T} {v : T}

theorem Rep.length (hr : Rep m nodes seq) (l : J) : (nodes l).length = (seq l).length := by
  have h := congrArg List.length (hr.values l)
  rwa [List.length_map, List.length_map] at h

theorem Rep.live (hr : Rep m nodes seq) (hn : n ∈ nodes l) : ∃ v, m.value n = some v := by
  have h : m.value n ∈ (seq l).map some := hr.values l ▸ List.mem_map_of_mem hn
  obtain ⟨v, _, hv⟩ := List.mem_map.mp h
  exact ⟨v, hv.symm⟩

theorem Rep.lt_used (hr : Rep m nodes seq) (hn : n ∈ nodes l) : n < m.used := by
  by_contra hle
  obtain ⟨v, hv⟩ := hr.live hn
  rw [hr.fresh n (by omega)] at hv
  cases hv

theorem Rep.empty (a : A) : Rep (Mem.empty a : Mem J T A) (fun _ => []) fun _ => [] :=
  ⟨⟨fun _ => ⟨List.isChain_pair.mpr ⟨rfl, rfl⟩, List.nodup_singleton _⟩, nofun⟩, fun _ => rfl,
    fun _ _ => rfl, fun _ => rfl⟩

/-- The values of the parts of a list. -/
theorem Rep.parts (hr : Rep m nodes seq) (hn : nodes l = xs ++ zs) (hs : seq l = ys ++ ws)
    (hlen : xs.length = ys.length) :
    xs.map m.value = ys.map some ∧ zs.map m.value = ws.map some := by
  have h := hr.values l
  rw [hn, hs, List.map_append, List.map_append] at h
  exact List.append_inj h (by rw [List.length_map, List.length_map, hlen])

/-- The two ends of a range that is not empty. -/
theorem firstOf_ne (l : J) (hne : ms ≠ []) (hd : (ms ++ zs).Nodup) :
    firstOf l (ms ++ zs) ≠ firstOf l zs := by
  obtain ⟨n, ms, rfl⟩ := List.exists_cons_of_ne_nil hne
  intro he
  have hm : Node.node n ∈ cycle l zs :=
    (show Node.node n = firstOf l zs from he) ▸ firstOf_mem l [] zs
  exact (List.nodup_cons.mp hd).1 (List.mem_append_right _ (node_mem_cycle.mp hm))

theorem Rep.begin (hr : Rep m nodes seq) (l : J) : begin l m = firstOf l (nodes l) := by
  have hadj : m.links.Adj (lastOf l []) (firstOf l (nodes l)) := hr.family.adj rfl
  exact hadj.1

/-- `std::next`. -/
theorem Rep.iter (hr : Rep m nodes seq) {i : Nat} (hi : i ≤ (nodes l).length) :
    iter l i m = firstOf l ((nodes l).drop i) := by
  unfold Lists.iter
  induction i with
  | zero => exact hr.begin l
  | succ i ih =>
    rw [Function.iterate_succ_apply', ih (by omega)]
    have hlt : i < (nodes l).length := by omega
    have hsplit : nodes l = (nodes l).take i ++ (nodes l)[i] :: (nodes l).drop (i + 1) := by
      rw [← List.drop_eq_getElem_cons hlt, List.take_append_drop]
    rw [List.drop_eq_getElem_cons hlt]
    exact (hr.family.neighbours hsplit).2

/-- Values outside the lists, and those of other lists, do not matter. -/
theorem map_value_congr {value value' : Nat → Option T} {xs : List Nat}
    (h : ∀ n ∈ xs, value' n = value n) :
    xs.map value' = xs.map value := List.map_congr_left h

variable [DecidableEq J]

theorem emplace_links (pos : Iter J) (v : T) (hp : m.links.prev pos ≠ .node m.used)
    (hpos : pos ≠ .node m.used) :
    (emplace l pos v m).1.links =
      (m.links.join (m.links.prev pos) (.node m.used)).join (.node m.used) pos := by
  unfold emplace Links.join Links.setNext Links.setPrev
  dsimp only
  rw [Function.update_of_ne hpos, Function.update_comm hp.symm]

theorem Rep.emplace (hr : Rep m nodes seq) (hn : nodes l = xs ++ zs) (hs : seq l = ys ++ ws)
    (hlen : xs.length = ys.length) (v : T) :
    Rep (emplace l (firstOf l zs) v m).1 (Function.update nodes l (xs ++ m.used :: zs))
      (Function.update seq l (ys ++ v :: ws)) := by
  have hnew : ∀ g, m.used ∉ nodes g := fun g hm => absurd (hr.lt_used hm) (Nat.lt_irrefl _)
  have hprev : m.links.prev (firstOf l zs) = lastOf l xs := (hr.family.adj hn).2
  have hlast : lastOf l xs ∈ cycle l (nodes l) := hn ▸ lastOf_mem l xs zs
  have hfirst : firstOf l zs ∈ cycle l (nodes l) := hn ▸ firstOf_mem l xs zs
  have hnot : Node.node m.used ∉ cycle l (nodes l) := fun hm => hnew l (node_mem_cycle.mp hm)
  have hvalue : ∀ g, ∀ n ∈ nodes g, Function.update m.value m.used (some v) n = m.value n :=
      fun g n hm =>
    Function.update_of_ne (ne_of_mem_of_not_mem hm (hnew g)) _ _
  obtain ⟨hxs, hzs⟩ := hr.parts hn hs hlen
  refine ⟨?_, fun g => ?_, fun n hn' => ?_, fun g => ?_⟩
  · rw [emplace_links _ _ (by rw [hprev]; exact ne_of_mem_of_not_mem hlast hnot)
      (ne_of_mem_of_not_mem hfirst hnot), hprev]
    exact hr.family.paste_one hn hnew
  · show (Function.update nodes l (xs ++ m.used :: zs) g).map
      (Function.update m.value m.used (some v)) = _
    by_cases hg : g = l
    · have hsub : ∀ n, n ∈ xs ∨ n ∈ zs → n ∈ nodes l := fun n h => hn ▸ List.mem_append.mpr h
      rw [hg, Function.update_self, Function.update_self, List.map_append, List.map_cons,
        Function.update_self, List.map_append, List.map_cons,
        map_value_congr fun n hm => hvalue l n (hsub n (.inl hm)),
        map_value_congr fun n hm => hvalue l n (hsub n (.inr hm)), hxs, hzs]
    · rw [Function.update_of_ne hg, Function.update_of_ne hg, map_value_congr (hvalue g),
        hr.values g]
  · show Function.update m.value m.used (some v) n = none
    change m.used + 1 ≤ n at hn'
    rw [Function.update_of_ne (by omega)]
    exact hr.fresh n (by omega)
  · show Function.update m.size l (m.size l + 1) g = _
    by_cases hg : g = l
    · rw [hg, Function.update_self, Function.update_self, hr.size l, hs]
      simp only [List.length_append, List.length_cons]
      omega
    · rw [Function.update_of_ne hg, Function.update_of_ne hg, hr.size g]

/-- The values with those of `ms` gone. -/
def dropped (ms : List Nat) (value : Nat → Option T) (n : Nat) : Option T :=
  if n ∈ ms then none else value n

omit [DecidableEq J] in
theorem map_dropped {xs : List Nat} (h : ∀ n ∈ xs, n ∉ ms) :
    xs.map (dropped ms m.value) = xs.map m.value :=
  List.map_congr_left fun n hn => if_neg (h n hn)

/-- A piece has been cut out and its nodes destroyed. -/
theorem Rep.removed (hr : Rep m nodes seq) (hn : nodes l = xs ++ (ms ++ zs))
    (hs : seq l = ys ++ (vs ++ ws)) (hlen : xs.length = ys.length) (hlen' : ms.length = vs.length)
    (hlinks : m'.links = m.links.join (lastOf l xs) (firstOf l zs))
    (hvalue : m'.value = dropped ms m.value) (hused : m'.used = m.used)
    (hsize : m'.size = Function.update m.size l (m.size l - ms.length)) :
    Rep m' (Function.update nodes l (xs ++ zs)) (Function.update seq l (ys ++ ws)) := by
  have hd : (xs ++ (ms ++ zs)).Nodup := hn ▸ hr.family.nodup l
  have hms : ∀ n ∈ ms, n ∈ nodes l :=
    fun n hm => hn ▸ List.mem_append_right _ (List.mem_append_left _ hm)
  obtain ⟨hxs, hrest⟩ := hr.parts hn hs hlen
  rw [List.map_append, List.map_append] at hrest
  have hzs := (List.append_inj hrest (by rw [List.length_map, List.length_map, hlen'])).2
  refine ⟨?_, fun g => ?_, fun n hn' => ?_, fun g => ?_⟩
  · rw [hlinks]; exact hr.family.cut hn
  · rw [hvalue]
    by_cases hg : g = l
    · rw [hg, Function.update_self, Function.update_self, List.map_append, List.map_append,
        map_dropped, map_dropped, hxs, hzs]
      · exact fun n hz hm => List.disjoint_of_nodup_append (List.nodup_append.mp hd).2.1 hm hz
      · exact fun n hx hm => List.disjoint_of_nodup_append hd hx (List.mem_append_left _ hm)
    · rw [Function.update_of_ne hg, Function.update_of_ne hg, map_dropped, hr.values g]
      exact fun n hng hm => hg (hr.family.unique g l n hng (hms n hm))
  · rw [hvalue]
    unfold dropped
    split
    · rfl
    · exact hr.fresh n (hused ▸ hn')
  · rw [hsize]
    by_cases hg : g = l
    · rw [hg, Function.update_self, Function.update_self, hr.size l, hs]
      simp only [List.length_append]
      omega
    · rw [Function.update_of_ne hg, Function.update_of_ne hg, hr.size g]

omit [DecidableEq J] in
theorem destroyNode_of_live (h : m.value n = some v) :
    destroyNode (.node n : Iter J) m = some { m with value := Function.update m.value n none } := by
  unfold destroyNode
  dsimp only
  rw [h, Option.map_some]

/-- The loop of `erase` for a range destroys its nodes and leaves the links. -/
theorem eraseLoop_eq (hf : Family m.links nodes) (hn : nodes l = xs ++ (ms ++ zs))
    (hlive : ∀ n ∈ ms, ∃ v, m.value n = some v) {fuel : Nat} (hfuel : ms.length < fuel) :
    eraseLoop fuel l (firstOf l (ms ++ zs)) (firstOf l zs) m =
      some { m with
        value := dropped ms m.value, size := Function.update m.size l (m.size l - ms.length) } := by
  induction ms generalizing xs m fuel with
  | nil =>
    obtain ⟨fuel, rfl⟩ := Nat.exists_eq_add_one_of_ne_zero (Nat.ne_of_gt hfuel)
    have hv : dropped [] m.value = m.value := funext fun n => if_neg List.not_mem_nil
    rw [eraseLoop, List.nil_append, if_pos rfl, hv, List.length_nil, Nat.sub_zero,
      Function.update_eq_self]
  | cons n ms ih =>
    obtain ⟨fuel, rfl⟩ := Nat.exists_eq_add_one_of_ne_zero (Nat.ne_of_gt (Nat.zero_lt_of_lt hfuel))
    obtain ⟨v, hv⟩ := hlive n List.mem_cons_self
    have hd : (n :: ms ++ zs).Nodup := (List.nodup_append.mp (hn ▸ hf.nodup l)).2.1
    have hne : firstOf l (n :: ms ++ zs) ≠ firstOf l zs := firstOf_ne l (List.cons_ne_nil _ _) hd
    have hnext : m.links.next (firstOf l (n :: ms ++ zs)) = firstOf l (ms ++ zs) :=
      (hf.neighbours hn).2
    have hdestroy :
        destroyNode (firstOf l (n :: ms ++ zs)) m =
          some { m with value := Function.update m.value n none } :=
      destroyNode_of_live hv
    rw [eraseLoop, if_neg hne, hdestroy, Option.bind_some, hnext]
    have hnm : n ∉ ms := fun hm => (List.nodup_cons.mp hd).1 (List.mem_append_left _ hm)
    have hlive' : ∀ k ∈ ms, ∃ w, Function.update m.value n none k = some w := fun k hk => by
      rw [Function.update_of_ne (ne_of_mem_of_not_mem hk hnm)]
      exact hlive k (List.mem_cons_of_mem _ hk)
    have hih := ih (m := setSize l (m.size l - 1)
      { m with value := Function.update m.value n none }) hf
      (show nodes l = (xs ++ [n]) ++ (ms ++ zs) by simpa using hn) hlive'
        (Nat.lt_of_succ_lt_succ hfuel)
    have hvalue : dropped ms (Function.update m.value n none) = dropped (n :: ms) m.value := by
      funext k
      by_cases hk : k = n
      · simp [dropped, hk]
      · simp [dropped, hk]
    refine hih.trans ?_
    unfold setSize
    dsimp only
    rw [hvalue, Function.update_self, Function.update_idem, List.length_cons, Nat.sub_sub,
      Nat.add_comm 1]

theorem Rep.eraseRange (hr : Rep m nodes seq) (hn : nodes l = xs ++ (ms ++ zs))
    (hs : seq l = ys ++ (vs ++ ws)) (hlen : xs.length = ys.length) (hlen' : ms.length = vs.length)
    {fuel : Nat} (hfuel : ms.length < fuel) :
    ∃ m', eraseRange fuel l (firstOf l (ms ++ zs)) (firstOf l zs) m = some (m', firstOf l zs) ∧
      Rep m' (Function.update nodes l (xs ++ zs)) (Function.update seq l (ys ++ ws)) ∧
      m'.alloc = m.alloc := by
  have hprev : m.links.prev (firstOf l (ms ++ zs)) = lastOf l xs := (hr.family.adj hn).2
  have hlive : ∀ n ∈ ms, ∃ v, m.value n = some v := fun n hm =>
    hr.live (hn ▸ List.mem_append_right _ (List.mem_append_left _ hm))
  refine ⟨{ m with
      links := m.links.join (lastOf l xs) (firstOf l zs)
      value := dropped ms m.value
      size := Function.update m.size l (m.size l - ms.length) }, ?_,
        hr.removed hn hs hlen hlen' rfl rfl rfl rfl, rfl⟩
  rw [Lists.eraseRange, eraseLoop_eq hr.family hn hlive hfuel, Option.map_some, hprev]
  rfl

theorem Rep.erase (hr : Rep m nodes seq) (hn : nodes l = xs ++ n :: zs) (hs : seq l = ys ++ v :: ws)
    (hlen : xs.length = ys.length) :
    ∃ m', erase l (.node n) m = some (m', firstOf l zs) ∧
      Rep m' (Function.update nodes l (xs ++ zs)) (Function.update seq l (ys ++ ws)) ∧
      m'.alloc = m.alloc := by
  obtain ⟨hprev, hnext⟩ := hr.family.neighbours hn
  obtain ⟨w, hw⟩ := hr.live (l := l) (n := n) (hn ▸ List.mem_append_right _ List.mem_cons_self)
  have hvalue : Function.update m.value n none = dropped [n] m.value := by
    funext k
    by_cases hk : k = n
    · simp [dropped, hk]
    · simp [dropped, hk]
  refine ⟨{ m with
      links := m.links.join (lastOf l xs) (firstOf l zs)
      value := dropped [n] m.value
      size := Function.update m.size l (m.size l - 1) }, ?_,
    hr.removed (show nodes l = xs ++ ([n] ++ zs) from hn)
      (show seq l = ys ++ ([v] ++ ws) from hs) hlen rfl rfl rfl rfl rfl, rfl⟩
  rw [Lists.erase, destroyNode_of_live hw, Option.map_some, hprev, hnext, hvalue]
  rfl

theorem Rep.clear (hr : Rep m nodes seq) (l : J) {fuel : Nat} (hfuel : (seq l).length < fuel) :
    ∃ m', clear fuel l m = some m' ∧
    Rep m' (Function.update nodes l []) (Function.update seq l []) ∧ m'.alloc = m.alloc := by
  obtain ⟨m', he, hr', ha⟩ :=
    hr.eraseRange (show nodes l = [] ++ (nodes l ++ []) by simp)
      (show seq l = [] ++ (seq l ++ []) by simp)
    rfl (hr.length l) (by rw [hr.length l]; exact hfuel)
  rw [List.append_nil] at he
  exact ⟨m', by rw [Lists.clear, hr.begin l]; exact congrArg _ he, hr', ha⟩

theorem Rep.popFront (hr : Rep m nodes seq) (hs : seq l = v :: ws) :
    ∃ m' nodes', popFront l m = some m' ∧ Rep m' nodes' (Function.update seq l ws) ∧
    m'.alloc = m.alloc := by
  have hlen := hr.length l
  rw [hs] at hlen
  cases hn : nodes l with
  | nil => rw [hn] at hlen; cases hlen
  | cons n zs =>
    obtain ⟨m', he, hr', ha⟩ :=
      hr.erase (show nodes l = [] ++ n :: zs from hn) (show seq l = [] ++ v :: ws from hs) rfl
    refine ⟨m', _, ?_, hr', ha⟩
    rw [Lists.popFront, hr.begin l, hn]
    exact congrArg (Option.map Prod.fst) he

theorem Rep.popBack (hr : Rep m nodes seq) (hs : seq l = ys ++ [v]) :
    ∃ m' nodes', popBack l m = some m' ∧ Rep m' nodes' (Function.update seq l ys) ∧
    m'.alloc = m.alloc := by
  have hlen := hr.length l
  rw [hs, List.length_append, List.length_singleton] at hlen
  rcases List.eq_nil_or_concat (nodes l) with hn | ⟨xs, n, hn⟩
  · rw [hn] at hlen; cases hlen
  · rw [List.concat_eq_append] at hn
    rw [hn, List.length_append, List.length_singleton] at hlen
    have hadj : m.links.Adj (lastOf l (xs ++ [n])) (firstOf l []) :=
      hr.family.adj (by rw [hn, List.append_nil])
    rw [lastOf_concat] at hadj
    obtain ⟨m', he, hr', ha⟩ := hr.erase hn hs (by omega)
    rw [List.append_nil] at hr'
    refine ⟨m', _, ?_, by simpa using hr', ha⟩
    have hprev : m.links.prev (.head l) = .node n := hadj.2
    rw [Lists.popBack, hprev]
    exact congrArg (Option.map Prod.fst) he

/-- `insert` of a range of another list. -/
theorem Rep.insertRange (hr : Rep m nodes seq) {l' : J} (hl : l' ≠ l) {us ks : List Nat}
    {ps qs : List T} (hn : nodes l = xs ++ zs) (hs : seq l = ys ++ ws)
    (hlen : xs.length = ys.length) (hn' : nodes l' = us ++ (ms ++ ks))
    (hs' : seq l' = ps ++ (vs ++ qs)) (hlen' : us.length = ps.length) (hmv : ms.length = vs.length)
    {fuel : Nat} (hfuel : ms.length < fuel) :
    ∃ m' new, insertRange fuel l (firstOf l zs) (firstOf l' (ms ++ ks)) (firstOf l' ks) m =
      some (m', firstOf l (new ++ zs)) ∧
      Rep m' (Function.update nodes l (xs ++ (new ++ zs)))
        (Function.update seq l (ys ++ (vs ++ ws))) ∧ m'.alloc = m.alloc := by
  induction ms using List.reverseRecOn generalizing zs ws m nodes seq vs ks qs fuel with
  | nil =>
    obtain rfl : vs = [] := List.length_eq_zero_iff.mp hmv.symm
    obtain ⟨fuel, rfl⟩ := Nat.exists_eq_add_one_of_ne_zero (Nat.ne_of_gt hfuel)
    refine ⟨m, [], by rw [Lists.insertRange, List.nil_append, if_pos rfl]; rfl, ?_, rfl⟩
    rw [List.nil_append, ← hn, Function.update_eq_self, List.nil_append, ← hs,
      Function.update_eq_self]
    exact hr
  | append_singleton ms n ih =>
    obtain ⟨fuel, rfl⟩ := Nat.exists_eq_add_one_of_ne_zero (Nat.ne_of_gt (Nat.zero_lt_of_lt hfuel))
    rw [List.length_append, List.length_singleton] at hmv hfuel
    rcases List.eq_nil_or_concat vs with rfl | ⟨vs, v, rfl⟩
    · cases hmv
    rw [List.concat_eq_append] at hmv hs' ⊢
    rw [List.length_append, List.length_singleton] at hmv
    rw [List.append_assoc, List.singleton_append] at hn' hs'
    have hne : firstOf l' (ms ++ [n] ++ ks) ≠ firstOf l' ks := by
      have hd : (ms ++ n :: ks).Nodup := (List.nodup_append.mp (hn' ▸ hr.family.nodup l')).2.1
      exact firstOf_ne l' (List.append_ne_nil_of_right_ne_nil _ (List.cons_ne_nil _ _))
        (by simpa using hd)
    have hlast : ∀ {m : Mem J T A} {nodes : J → List Nat} {seq : J → List T}, Rep m nodes seq →
      nodes l' = us ++ (ms ++ n :: ks) →
        m.links.prev (firstOf l' ks) = .node n := fun hr hn' => by
      have hadj := hr.family.adj (show _ = (us ++ ms ++ [n]) ++ ks by simpa using hn')
      rw [lastOf_concat] at hadj
      exact hadj.2
    have hderef : deref (.node n) m = some v := by
      have hp := hr.parts (show nodes l' = (us ++ ms) ++ n :: ks by simpa using hn')
        (show seq l' = (ps ++ vs) ++ v :: qs by simpa using hs')
        (by rw [List.length_append, List.length_append]; omega)
      exact (List.cons.inj hp.2).1
    have hr₁ := hr.emplace hn hs hlen v
    have hn₁ : Function.update nodes l (xs ++ m.used :: zs) l' = us ++ (ms ++ n :: ks) :=
      (Function.update_of_ne hl _ _).trans hn'
    have hs₁ : Function.update seq l (ys ++ v :: ws) l' = ps ++ (vs ++ v :: qs) :=
      (Function.update_of_ne hl _ _).trans hs'
    obtain ⟨m', new, heq, hr', ha⟩ :=
      ih hr₁ (Function.update_self _ _ _) (Function.update_self _ _ _) hn₁ hs₁ (Nat.succ.inj hmv)
      (Nat.lt_of_succ_lt_succ hfuel)
    refine ⟨m', new ++ [m.used], ?_, ?_, ha⟩
    · rw [Lists.insertRange, if_neg hne, hlast hr hn', hderef, Option.bind_some]
      dsimp only
      rw [hlast hr₁ hn₁, List.append_assoc, List.append_assoc]
      exact heq
    · rw [Function.update_idem, Function.update_idem] at hr'
      simpa using hr'

theorem Rep.store (hr : Rep m nodes seq) (hn : nodes l = xs ++ n :: zs) (hs : seq l = ys ++ v :: ws)
    (hlen : xs.length = ys.length) (w : T) :
    store (.node n) w m = some { m with value := Function.update m.value n (some w) } ∧
      Rep { m with value := Function.update m.value n (some w) } nodes
        (Function.update seq l (ys ++ w :: ws)) := by
  have hmem : n ∈ nodes l := hn ▸ List.mem_append_right _ List.mem_cons_self
  obtain ⟨u, hu⟩ := hr.live hmem
  have hd : (xs ++ n :: zs).Nodup := hn ▸ hr.family.nodup l
  have hnx : n ∉ xs := fun hm => List.disjoint_of_nodup_append hd hm List.mem_cons_self
  have hnz : n ∉ zs := (List.nodup_cons.mp (List.nodup_append.mp hd).2.1).1
  obtain ⟨hxs, hzs⟩ := hr.parts hn hs hlen
  refine ⟨by rw [Lists.store, hu, Option.map_some], hr.family, fun g => ?_, fun k hk => ?_,
    fun g => ?_⟩
  · show (nodes g).map (Function.update m.value n (some w)) = _
    by_cases hg : g = l
    · rw [hg, Function.update_self, hn, List.map_append, List.map_cons, Function.update_self,
        List.map_append, List.map_cons,
        map_value_congr fun k hk => Function.update_of_ne (ne_of_mem_of_not_mem hk hnx) _ _,
        map_value_congr fun k hk => Function.update_of_ne (ne_of_mem_of_not_mem hk hnz) _ _, hxs,
        (List.cons.inj hzs).2]
    · have hng : n ∉ nodes g := fun hm => hg (hr.family.unique g l n hm hmem)
      rw [Function.update_of_ne hg,
        map_value_congr fun k hk => Function.update_of_ne (ne_of_mem_of_not_mem hk hng) _ _,
        hr.values g]
  · show Function.update m.value n (some w) k = none
    have hlt := hr.lt_used hmem
    change m.used ≤ k at hk
    rw [Function.update_of_ne (by omega)]
    exact hr.fresh k hk
  · show m.size g = _
    by_cases hg : g = l
    · rw [hg, Function.update_self, hr.size l, hs]
      simp only [List.length_append, List.length_cons]
    · rw [Function.update_of_ne hg, hr.size g]

/-- The loops of the copy assignment, from another list. -/
theorem Rep.assignLoop (hr : Rep m nodes seq) {l' : J} (hl : l' ≠ l) {us ps qs ks : List Nat}
    {as bs cs : List T} {more : Iter J → Iter J → Bool}
    (hmore : ∀ p q, more (.node p) (.node q) = true)
    (hstop : more (firstOf l zs) (firstOf l' ks) = false)
    (hn : nodes l = xs ++ (ps ++ zs)) (hs : seq l = ys ++ (as ++ ws)) (hlen : xs.length = ys.length)
    (hn' : nodes l' = us ++ (qs ++ ks)) (hs' : seq l' = bs ++ (vs ++ cs))
    (hlen' : us.length = bs.length) (hpq : ps.length = qs.length) (hpa : ps.length = as.length)
    (hqv : qs.length = vs.length) {fuel : Nat} (hfuel : ps.length < fuel) :
    ∃ m', assignLoop fuel more (firstOf l (ps ++ zs)) (firstOf l' (qs ++ ks)) m =
      some (m', firstOf l zs, firstOf l' ks) ∧
      Rep m' nodes (Function.update seq l (ys ++ (vs ++ ws))) ∧ m'.alloc = m.alloc := by
  induction ps generalizing qs xs us ys bs as vs m seq fuel with
  | nil =>
    obtain rfl : qs = [] := List.length_eq_zero_iff.mp hpq.symm
    obtain rfl : as = [] := List.length_eq_zero_iff.mp hpa.symm
    obtain rfl : vs = [] := List.length_eq_zero_iff.mp hqv.symm
    obtain ⟨fuel, rfl⟩ := Nat.exists_eq_add_one_of_ne_zero (Nat.ne_of_gt hfuel)
    refine ⟨m, ?_, by rw [← hs, Function.update_eq_self]; exact hr, rfl⟩
    rw [Lists.assignLoop, List.nil_append, List.nil_append,
      if_neg (by rw [hstop]; exact Bool.false_ne_true)]
  | cons p ps ih =>
    obtain ⟨fuel, rfl⟩ := Nat.exists_eq_add_one_of_ne_zero (Nat.ne_of_gt (Nat.zero_lt_of_lt hfuel))
    obtain ⟨q, qs, rfl⟩ := List.exists_cons_of_length_eq_add_one hpq.symm
    obtain ⟨a, as, rfl⟩ := List.exists_cons_of_length_eq_add_one hpa.symm
    obtain ⟨v, vs, rfl⟩ := List.exists_cons_of_length_eq_add_one hqv.symm
    have hderef : deref (.node q) m = some v := by
      have hp := hr.parts hn' hs' hlen'
      exact (List.cons.inj hp.2).1
    obtain ⟨hstore, hr₁⟩ :=
      hr.store (show nodes l = xs ++ p :: (ps ++ zs) from hn)
        (show seq l = ys ++ a :: (as ++ ws) from hs) hlen v
    obtain ⟨m', heq, hr', ha⟩ := ih hr₁ (show nodes l = (xs ++ [p]) ++ (ps ++ zs) by simpa using hn)
      (show Function.update seq l (ys ++ v :: (as ++ ws)) l = (ys ++ [v]) ++ (as ++ ws) by simp)
      (by rw [List.length_append, List.length_append, hlen]; rfl)
        (show nodes l' = (us ++ [q]) ++ (qs ++ ks) by simpa using hn')
      (show Function.update seq l (ys ++ v :: (as ++ ws)) l' =
        (bs ++ [v]) ++ (vs ++ cs) by rw [Function.update_of_ne hl, hs']; simp)
      (by rw [List.length_append, List.length_append, hlen']; rfl) (Nat.succ.inj hpq)
        (Nat.succ.inj hpa) (Nat.succ.inj hqv)
      (Nat.lt_of_succ_lt_succ hfuel)
    refine ⟨m', ?_, by rw [Function.update_idem] at hr'; simpa using hr', ha⟩
    have hnext : m.links.next (.node p) = firstOf l (ps ++ zs) :=
      (hr.family.neighbours (show nodes l = xs ++ p :: (ps ++ zs) from hn)).2
    have hnext' : m.links.next (.node q) = firstOf l' (qs ++ ks) :=
      (hr.family.neighbours (show nodes l' = us ++ q :: (qs ++ ks) from hn')).2
    show Lists.assignLoop (fuel + 1) more (.node p) (.node q) m = _
    rw [Lists.assignLoop, if_pos (hmore p q), hderef, Option.bind_some, hstore, Option.bind_some]
    dsimp only
    rw [hnext, hnext']
    exact heq

omit [DecidableEq J] in
/-- The loop of the self-assignment. -/
theorem Rep.assignLoop_self (hr : Rep m nodes seq) {ps : List Nat} {more : Iter J → Iter J → Bool}
    (hmore : ∀ p q, more (.node p) (.node q) = true) (hstop : more (.head l) (.head l) = false)
    (hn : nodes l = xs ++ ps) {fuel : Nat} (hfuel : ps.length < fuel) :
    Lists.assignLoop fuel more (firstOf l ps) (firstOf l ps) m = some (m, .head l, .head l) := by
  induction ps generalizing xs fuel with
  | nil =>
    obtain ⟨fuel, rfl⟩ := Nat.exists_eq_add_one_of_ne_zero (Nat.ne_of_gt hfuel)
    show Lists.assignLoop (fuel + 1) more (.head l) (.head l) m = _
    rw [Lists.assignLoop, if_neg (by rw [hstop]; exact Bool.false_ne_true)]
  | cons p ps ih =>
    obtain ⟨fuel, rfl⟩ := Nat.exists_eq_add_one_of_ne_zero (Nat.ne_of_gt (Nat.zero_lt_of_lt hfuel))
    obtain ⟨v, hv⟩ := hr.live (l := l) (n := p) (hn ▸ List.mem_append_right _ List.mem_cons_self)
    have hnext : m.links.next (.node p) = firstOf l ps := (hr.family.neighbours hn).2
    have hsame : Function.update m.value p (some v) = m.value := by
      rw [← hv, Function.update_eq_self]
    have hderef : deref (.node p) m = some v := hv
    have hstore : Lists.store (.node p) v m = some m := by
      rw [Lists.store, hv, Option.map_some, hsame]
    show Lists.assignLoop (fuel + 1) more (.node p) (.node p) m = _
    rw [Lists.assignLoop, if_pos (hmore p p), hderef, Option.bind_some, hstore, Option.bind_some,
      hnext]
    exact ih (show nodes l = (xs ++ [p]) ++ ps by simpa using hn) (Nat.lt_of_succ_lt_succ hfuel)

theorem Rep.growLoop (hr : Rep m nodes seq) {count : Nat} (v : T) {fuel : Nat}
    (hfuel : count - (seq l).length < fuel) :
    ∃ m' nodes', growLoop fuel l count v m = some m' ∧
      Rep m' nodes' (Function.update seq l (seq l ++ List.replicate (count - (seq l).length) v)) ∧
      m'.alloc = m.alloc := by
  induction fuel generalizing m nodes seq with
  | zero => exact absurd hfuel (Nat.not_lt_zero _)
  | succ fuel ih =>
    unfold Lists.growLoop
    rw [hr.size l]
    by_cases hc : count > (seq l).length
    · rw [if_pos hc]
      have hr₁ := hr.emplace (List.append_nil _).symm (List.append_nil _).symm (hr.length l) v
      have hlen : count - (Function.update seq l (seq l ++ [v]) l).length < fuel := by
        rw [Function.update_self, List.length_append, List.length_singleton]
        omega
      obtain ⟨m', nodes', heq, hr', ha⟩ := ih hr₁ hlen
      refine ⟨m', nodes', heq, ?_, ha⟩
      rw [Function.update_idem, Function.update_self, List.length_append, List.length_singleton,
        List.append_assoc, List.singleton_append, ← List.replicate_succ] at hr'
      rw [show count - (seq l).length = count - ((seq l).length + 1) + 1 by omega]
      exact hr'
    · rw [if_neg hc]
      refine ⟨m, nodes, rfl, ?_, rfl⟩
      rw [Nat.sub_eq_zero_of_le (Nat.le_of_not_gt hc), List.replicate_zero, List.append_nil,
        Function.update_eq_self]
      exact hr

theorem Rep.shrinkLoop (hr : Rep m nodes seq) {count : Nat} {fuel : Nat}
    (hfuel : (seq l).length - count < fuel) :
    ∃ m' nodes', shrinkLoop fuel l count m = some m' ∧
    Rep m' nodes' (Function.update seq l ((seq l).take count)) ∧
      m'.alloc = m.alloc := by
  induction fuel generalizing m nodes seq with
  | zero => exact absurd hfuel (Nat.not_lt_zero _)
  | succ fuel ih =>
    unfold Lists.shrinkLoop
    rw [hr.size l]
    by_cases hc : (seq l).length > count
    · rw [if_pos hc]
      rcases List.eq_nil_or_concat (seq l) with hnil | ⟨ys, v, hs⟩
      · rw [hnil] at hc; cases hc
      rw [List.concat_eq_append] at hs
      obtain ⟨m₁, nodes₁, hpop, hr₁, ha₁⟩ := hr.popBack hs
      rw [hs, List.length_append, List.length_singleton] at hfuel hc
      have hlen : (Function.update seq l ys l).length - count < fuel := by
        rw [Function.update_self]
        omega
      obtain ⟨m', nodes', heq, hr', ha⟩ := ih hr₁ hlen
      refine ⟨m', nodes', by rw [hpop, Option.bind_some, heq], ?_, ha.trans ha₁⟩
      rw [Function.update_idem, Function.update_self] at hr'
      rw [hs, List.take_append_of_le_length (by omega)]
      exact hr'
    · rw [if_neg hc]
      refine ⟨m, nodes, rfl, ?_, rfl⟩
      rw [List.take_of_length_le (Nat.le_of_not_gt hc), Function.update_eq_self]
      exact hr

/-- `resize(count)`; its assertion holds. -/
theorem Rep.resize (hr : Rep m nodes seq) (τ : Traits T A) (l : J) (count : Nat) {fuel : Nat}
    (hfuel : count + (seq l).length < fuel) :
    ∃ m' nodes', resize τ fuel l count m = some m' ∧
      Rep m' nodes' (Function.update seq l
        ((seq l).take count ++ List.replicate (count - (seq l).length) τ.value)) ∧
      m'.alloc = m.alloc := by
  have hassert : ∀ {m' : Mem J T A} {nodes' : J → List Nat},
      Rep m' nodes' (Function.update seq l
        ((seq l).take count ++ List.replicate (count - (seq l).length) τ.value)) →
          count = m'.size l := by
    intro m' nodes' hr'
    rw [hr'.size l, Function.update_self, List.length_append, List.length_take,
      List.length_replicate]
    omega
  unfold Lists.resize
  rw [hr.size l]
  by_cases hc : count > (seq l).length
  · have hf : count - (seq l).length < fuel := by omega
    obtain ⟨m', nodes', heq, hr', ha⟩ := hr.growLoop τ.value hf
    have htake : (seq l).take count = seq l := List.take_of_length_le (Nat.le_of_lt hc)
    have hr'' :
        Rep m' nodes' (Function.update seq l
            ((seq l).take count ++ List.replicate (count - (seq l).length) τ.value)) := by
      rw [htake]; exact hr'
    exact ⟨m', nodes', by rw [if_pos hc, heq, Option.bind_some, if_pos (hassert hr'')], hr'', ha⟩
  · have hf : (seq l).length - count < fuel := by omega
    obtain ⟨m', nodes', heq, hr', ha⟩ := hr.shrinkLoop hf
    have hr'' :
        Rep m' nodes' (Function.update seq l
            ((seq l).take count ++ List.replicate (count - (seq l).length) τ.value)) := by
      rw [Nat.sub_eq_zero_of_le (Nat.le_of_not_gt hc), List.replicate_zero, List.append_nil]
      exact hr'
    exact ⟨m', nodes', by rw [if_neg hc, heq, Option.bind_some, if_pos (hassert hr'')], hr'', ha⟩

/-- The constructor of an empty list, in the place of one that has been destroyed. -/
theorem Rep.construct (hr : Rep m nodes seq) (l : J) (hs : seq l = []) (a : A) :
    Rep (construct l a m) nodes seq := by
  have hn : nodes l = [] := List.length_eq_zero_iff.mp ((hr.length l).trans (by rw [hs]; rfl))
  refine ⟨hr.family.isolate hn, hr.values, hr.fresh, fun g => ?_⟩
  show Function.update m.size l 0 g = _
  by_cases hg : g = l
  · rw [hg, Function.update_self, hs]; rfl
  · rw [Function.update_of_ne hg, hr.size g]

theorem Rep.copyConstruct (hr : Rep m nodes seq) {l' : J} (hl : l' ≠ l) (hs : seq l = []) (a : A)
    {fuel : Nat} (hfuel : (seq l').length < fuel) :
    ∃ m' nodes', copyConstruct fuel l l' a m = some m' ∧
    Rep m' nodes' (Function.update seq l (seq l')) ∧
      m'.alloc = Function.update m.alloc l a := by
  have hr₁ := hr.construct l hs a
  have hn : nodes l = [] := List.length_eq_zero_iff.mp ((hr.length l).trans (by rw [hs]; rfl))
  obtain ⟨m', new, heq, hr', ha⟩ :=
    hr₁.insertRange hl (show nodes l = [] ++ [] from hn) (show seq l = [] ++ [] from hs) rfl
    (show nodes l' = [] ++ (nodes l' ++ []) by simp)
      (show seq l' = [] ++ (seq l' ++ []) by simp) rfl (hr.length l')
    (by rw [hr.length l']; exact hfuel)
  refine ⟨m', _, ?_, by simpa using hr', ha⟩
  rw [List.append_nil] at heq
  rw [Lists.copyConstruct, hr₁.begin l']
  exact congrArg (Option.map Prod.fst) heq

/-- The copy assignment from another list, with any relation of the sizes. -/
theorem Rep.assignElements (hr : Rep m nodes seq) {l' : J} (hl : l' ≠ l) {fuel : Nat}
    (hfuel : (seq l).length + (seq l').length < fuel) :
    ∃ m' nodes', assignElements fuel l l' m = some m' ∧
    Rep m' nodes' (Function.update seq l (seq l')) ∧ m'.alloc = m.alloc := by
  have hlen := hr.length l
  have hlen' := hr.length l'
  unfold Lists.assignElements
  rw [hr.size l, hr.size l', hr.begin l, hr.begin l']
  by_cases hc : (seq l).length < (seq l').length
  · rw [if_pos hc]
    have hk : (nodes l).length = ((nodes l').take (nodes l).length).length := by
      rw [List.length_take]; omega
    have hk' : (nodes l).length = ((seq l').take (nodes l).length).length := by
      rw [List.length_take]; omega
    obtain ⟨more, hm⟩ : ∃ more : Iter J → Iter J →
      Bool, more = fun first _ => decide (first ≠ .head l) := ⟨_, rfl⟩
    have hmore : ∀ p q, more (.node p) (.node q) = true := fun p q => by rw [hm]; rfl
    have hstop : more (firstOf l []) (firstOf l' ((nodes l').drop (nodes l).length)) = false := by
      rw [hm]; simp [firstOf]
    have hfuel₁ : (nodes l).length < fuel := by omega
    have hfuel₂ : ((nodes l').drop (nodes l).length).length < fuel := by
      rw [List.length_drop]; omega
    obtain ⟨m₁, heq₁, hr₁, ha₁⟩ :=
      hr.assignLoop hl hmore hstop (show nodes l = [] ++ (nodes l ++ []) by simp)
      (show seq l = [] ++ (seq l ++ []) by simp) rfl
        (show nodes l' = [] ++ ((nodes l').take (nodes l).length ++ _) by simp)
      (show seq l' = [] ++ ((seq l').take (nodes l).length ++ (seq l').drop (nodes l).length)
        by simp) rfl hk hlen
      (hk.symm.trans hk') hfuel₁
    rw [List.nil_append] at hr₁
    obtain ⟨m', new, heq, hr', ha⟩ :=
      hr₁.insertRange hl (show nodes l = nodes l ++ [] by simp) (Function.update_self _ _ _) hk'
      (show nodes l' = (nodes l').take (nodes l).length ++
        ((nodes l').drop (nodes l).length ++ []) by simp)
      (show _ = (seq l').take (nodes l).length ++ ((seq l').drop (nodes l).length ++ []) by
        rw [Function.update_of_ne hl]; simp)
      (hk.symm.trans hk') (by rw [List.length_drop, List.length_drop, hlen']) hfuel₂
    rw [List.append_nil, List.take_append_drop] at heq₁
    rw [List.append_nil] at heq
    simp only [List.append_nil, List.take_append_drop, Function.update_idem] at hr'
    refine ⟨m', _, ?_, hr', ha.trans ha₁⟩
    rw [← hm, heq₁, Option.bind_some]
    exact congrArg (Option.map Prod.fst) heq
  · rw [if_neg hc]
    have hk : ((nodes l).take (nodes l').length).length = (nodes l').length := by
      rw [List.length_take]; omega
    have hk' :
        ((nodes l).take (nodes l').length).length = ((seq l).take (nodes l').length).length := by
      rw [List.length_take, List.length_take]; omega
    obtain ⟨more, hm⟩ : ∃ more : Iter J → Iter J →
      Bool, more = fun _ otherFirst => decide (otherFirst ≠ .head l') := ⟨_, rfl⟩
    have hmore : ∀ p q, more (.node p) (.node q) = true := fun p q => by rw [hm]; rfl
    have hstop : more (firstOf l ((nodes l).drop (nodes l').length)) (firstOf l' []) = false := by
      rw [hm]; simp [firstOf]
    have hfuel₁ : ((nodes l).take (nodes l').length).length < fuel := by omega
    have hfuel₂ : ((nodes l).drop (nodes l').length).length < fuel := by
      rw [List.length_drop]; omega
    obtain ⟨m₁, heq₁, hr₁, ha₁⟩ :=
      hr.assignLoop hl hmore hstop
        (show nodes l = [] ++ ((nodes l).take (nodes l').length ++ _) by simp)
      (show seq l = [] ++ ((seq l).take (nodes l').length ++ (seq l).drop (nodes l').length)
        by simp) rfl
      (show nodes l' = [] ++ (nodes l' ++ []) by simp)
        (show seq l' = [] ++ (seq l' ++ []) by simp) rfl hk hk' hlen' hfuel₁
    rw [List.nil_append] at hr₁
    obtain ⟨m', heq, hr', ha⟩ := hr₁.eraseRange
      (show nodes l = (nodes l).take (nodes l').length ++
        ((nodes l).drop (nodes l').length ++ []) by simp)
      (show _ = seq l' ++ ((seq l).drop (nodes l').length ++ []) by rw [Function.update_self,
        List.append_nil]) (hk.trans hlen')
      (by rw [List.length_drop, List.length_drop, hlen]) hfuel₂
    rw [List.append_nil, List.take_append_drop] at heq₁
    rw [List.append_nil] at heq
    simp only [List.append_nil, Function.update_idem] at hr'
    refine ⟨m', _, ?_, hr', ha.trans ha₁⟩
    rw [← hm, heq₁, Option.bind_some]
    exact congrArg (Option.map Prod.fst) heq

/-- The self-assignment. -/
theorem Rep.assignElements_self (hr : Rep m nodes seq) (l : J) {fuel : Nat}
    (hfuel : (seq l).length < fuel) :
    ∃ m', Lists.assignElements fuel l l m = some m' ∧ Rep m' nodes seq ∧ m'.alloc = m.alloc := by
  obtain ⟨more, hm⟩ : ∃ more : Iter J → Iter J →
    Bool, more = fun _ otherFirst => decide (otherFirst ≠ .head l) := ⟨_, rfl⟩
  have hmore : ∀ p q, more (.node p) (.node q) = true := fun p q => by rw [hm]; rfl
  have hstop : more (.head l) (.head l) = false := by rw [hm]; simp
  have hloop := hr.assignLoop_self hmore hstop (show nodes l = [] ++ nodes l from rfl)
    (by rw [hr.length l]; exact hfuel)
  obtain ⟨m', heq, hr', ha⟩ :=
    hr.eraseRange (show nodes l = nodes l ++ ([] ++ []) by simp)
      (show seq l = seq l ++ ([] ++ []) by simp)
    (hr.length l) rfl (Nat.zero_lt_of_lt hfuel)
  simp only [List.append_nil, Function.update_eq_self] at hr'
  refine ⟨m', ?_, hr', ha⟩
  rw [Lists.assignElements, if_neg (Nat.lt_irrefl _), hr.begin l, ← hm, hloop, Option.bind_some]
  exact congrArg (Option.map Prod.fst) heq

/-- The range insertion leaves the allocators alone. -/
theorem insertRange_alloc {fuel : Nat} {pos first last it : Iter J}
    (h : Lists.insertRange fuel l pos first last m = some (m', it)) :
    m'.alloc = m.alloc := by
  induction fuel generalizing m pos last with
  | zero => cases h
  | succ fuel ih =>
    rw [Lists.insertRange] at h
    split at h
    · cases h; rfl
    · obtain ⟨v, _, h⟩ := Option.bind_eq_some_iff.mp h
      exact ih (m := (Lists.emplace l pos v m).1) h

theorem copyConstruct_alloc {l' : J} {a : A} {fuel : Nat}
    (h : Lists.copyConstruct fuel l l' a m = some m') :
    m'.alloc = Function.update m.alloc l a := by
  obtain ⟨⟨m₁, it⟩, h₁, rfl⟩ := Option.map_eq_some_iff.mp h
  exact insertRange_alloc h₁

/-! ## Positions by index -/

theorem Rep.emplaceAt (hr : Rep m nodes seq) {i : Nat} (hi : i ≤ (seq l).length) (v : T) :
    ∃ nodes', Rep (Lists.emplace l (Lists.iter l i m) v m).1 nodes'
      (Function.update seq l ((seq l).take i ++ v :: (seq l).drop i)) := by
  have hi' : i ≤ (nodes l).length := by rw [hr.length]; exact hi
  have hr' := hr.emplace (List.take_append_drop i _).symm (List.take_append_drop i (seq l)).symm
    (by rw [List.length_take_of_le hi', List.length_take_of_le hi]) v
  rw [← hr.iter hi'] at hr'
  exact ⟨_, hr'⟩

theorem Rep.eraseAt (hr : Rep m nodes seq) {i : Nat} (hi : i < (seq l).length) :
    ∃ m' nodes', (Lists.erase l (Lists.iter l i m) m).map Prod.fst = some m' ∧
      Rep m' nodes' (Function.update seq l ((seq l).take i ++ (seq l).drop (i + 1))) ∧
      m'.alloc = m.alloc := by
  have hi' : i < (nodes l).length := by rw [hr.length]; exact hi
  have hn : nodes l = (nodes l).take i ++ (nodes l)[i] :: (nodes l).drop (i + 1) := by
    rw [← List.drop_eq_getElem_cons hi', List.take_append_drop]
  have hs : seq l = (seq l).take i ++ (seq l)[i] :: (seq l).drop (i + 1) := by
    rw [← List.drop_eq_getElem_cons hi, List.take_append_drop]
  obtain ⟨m', he, hr', ha⟩ :=
    hr.erase hn hs (by rw [List.length_take_of_le hi'.le, List.length_take_of_le hi.le])
  refine ⟨m', _, ?_, hr', ha⟩
  rw [hr.iter hi'.le, List.drop_eq_getElem_cons hi']
  exact congrArg (Option.map Prod.fst) he

omit [DecidableEq J] in
/-- A list between two positions. -/
theorem drop_split {α : Type} (xs : List α) {i j : Nat} (hij : i ≤ j) :
    xs.drop i = (xs.drop i).take (j - i) ++ xs.drop j := by
  have h : xs.drop j = (xs.drop i).drop (j - i) := by rw [List.drop_drop, Nat.add_sub_cancel' hij]
  rw [h, List.take_append_drop]

omit [DecidableEq J] in
theorem split_three {α : Type} (xs : List α) {i j : Nat} (hij : i ≤ j) :
    xs = xs.take i ++ ((xs.drop i).take (j - i) ++ xs.drop j) := by
  rw [← drop_split xs hij, List.take_append_drop]

theorem Rep.eraseFromTo (hr : Rep m nodes seq) {i j : Nat} (hij : i ≤ j) (hj : j ≤ (seq l).length)
    {fuel : Nat} (hfuel : (seq l).length < fuel) :
    ∃ m' nodes', (Lists.eraseRange fuel l (Lists.iter l i m) (Lists.iter l j m) m).map Prod.fst =
      some m' ∧
      Rep m' nodes' (Function.update seq l ((seq l).take i ++ (seq l).drop j)) ∧
      m'.alloc = m.alloc := by
  have hlen := hr.length l
  obtain ⟨m', he, hr', ha⟩ := hr.eraseRange (split_three (nodes l) hij) (split_three (seq l) hij)
    (by rw [List.length_take, List.length_take, hlen])
    (by rw [List.length_take, List.length_take, List.length_drop, List.length_drop, hlen])
    (show _ < fuel by rw [List.length_take, List.length_drop]; omega)
  refine ⟨m', _, ?_, hr', ha⟩
  rw [hr.iter (by omega), hr.iter (by omega), drop_split (nodes l) hij]
  exact congrArg (Option.map Prod.fst) he

theorem Rep.insertFromTo (hr : Rep m nodes seq) {l' : J} (hl : l' ≠ l) {i j k : Nat}
    (hi : i ≤ (seq l).length) (hjk : j ≤ k) (hk : k ≤ (seq l').length) {fuel : Nat}
    (hfuel : (seq l').length < fuel) :
    ∃ m' nodes', (Lists.insertRange fuel l (Lists.iter l i m) (Lists.iter l' j m)
      (Lists.iter l' k m) m).map Prod.fst = some m' ∧
      Rep m' nodes' (Function.update seq l
        ((seq l).take i ++ (((seq l').drop j).take (k - j) ++ (seq l).drop i))) ∧
      m'.alloc = m.alloc := by
  have hlen := hr.length l
  have hlen' := hr.length l'
  obtain ⟨m', new, he, hr', ha⟩ :=
    hr.insertRange hl (List.take_append_drop i (nodes l)).symm
      (List.take_append_drop i (seq l)).symm
    (by rw [List.length_take, List.length_take, hlen]) (split_three (nodes l') hjk)
      (split_three (seq l') hjk)
    (by rw [List.length_take, List.length_take, hlen'])
    (by rw [List.length_take, List.length_take, List.length_drop, List.length_drop, hlen'])
    (show _ < fuel by rw [List.length_take, List.length_drop]; omega)
  refine ⟨m', _, ?_, hr', ha⟩
  rw [hr.iter (by omega), hr.iter (by omega), hr.iter (by omega), drop_split (nodes l') hjk]
  exact congrArg (Option.map Prod.fst) he

/-! ## The copy assignment -/

/-- Without a change of the allocator. -/
theorem Rep.assign (hr : Rep m nodes seq) (l l' : J) {fuel : Nat}
    (hfuel : (seq l).length + (seq l').length < fuel) :
    ∃ m' nodes', Lists.assignElements fuel l l' m = some m' ∧
    Rep m' nodes' (Function.update seq l (seq l')) ∧ m'.alloc = m.alloc := by
  by_cases hl : l' = l
  · obtain ⟨m', he, hr', ha⟩ := hr.assignElements_self l (by omega : (seq l).length < fuel)
    exact ⟨m', nodes, by rw [hl]; exact he, by rw [hl, Function.update_eq_self]; exact hr', ha⟩
  · exact hr.assignElements hl hfuel

variable [DecidableEq A] {τ : Traits T A} {l' : J} {fuel : Nat}

theorem Rep.copyAssign (hr : Rep m nodes seq) (tmp l l' : J)
    (hfuel : (seq l).length + (seq l').length < fuel)
    (heq : τ.propagateOnCopyAssignment = true → m.alloc l = m.alloc l') :
    ∃ m' nodes', copyAssign τ fuel tmp l l' m = some m' ∧
    Rep m' nodes' (Function.update seq l (seq l')) ∧ m'.alloc = m.alloc := by
  unfold Lists.copyAssign
  split
  · next hp =>
    rw [if_neg (not_not_intro (heq hp)), ← heq hp, Function.update_eq_self]
    exact hr.assign l l' hfuel
  · exact hr.assign l l' hfuel

/-- `splice` asserts that the allocators are equal. -/
theorem copyAssign_of_ne (tmp : J) (hl : tmp ≠ l) (hp : τ.propagateOnCopyAssignment = true)
    (hne : m.alloc l ≠ m.alloc l') :
    Lists.copyAssign τ fuel tmp l l' m = none := by
  rw [Lists.copyAssign, if_pos hp, if_pos hne]
  dsimp only
  cases hc : Lists.copyConstruct fuel tmp l' (m.alloc l') m with
  | none => rfl
  | some m₁ =>
    have ha := copyConstruct_alloc hc
    have hassert : m₁.alloc l ≠ m₁.alloc tmp := by
      rw [ha, Function.update_self, Function.update_of_ne hl.symm]
      exact hne
    rw [Option.bind_some, spliceAll, splice, if_neg hassert]
    rfl

end rep

end Gpcl.Lists
