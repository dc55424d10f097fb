import Gpcl.Lists.Spec

/-! # insert of a range

The operations again with what can throw: the allocation of a node and the constructor of its
element. The elements of a foreign range go in from the last to the first, and where one throws,
those that are in are erased from the position on, which is in front of them. -/
namespace Gpcl.Lists
open Lib.Rings

variable {J T A I : Type} [DecidableEq J] [DecidableEq I]

/-- The memory, and the nodes that have been allocated and not deallocated. -/
structure Heap (J T A : Type) where
  mem : Mem J T A
  allocated : Nat → Bool

/-- What happens when an element is inserted. -/
inductive Outcome
  | completes
  | allocationThrows
  | constructorThrows

inductive Exit (α : Type)
  | returned (a : α)
  | thrown

namespace Heap

def createNode (prev next : Iter J) (v : T) (o : Outcome) (s : Heap J T A) :
    Heap J T A × Exit (Iter J) :=
  let p := s.mem.used
  -- the links of the node are initialised before its element
  let links := (s.mem.links.setPrev (.node p) prev).setNext (.node p) next
  match o with
  | .allocationThrows => (s, .thrown)
  | .constructorThrows =>
    -- `catch` deallocates
    (⟨{ s.mem with links := links, used := p + 1 },
      Function.update (Function.update s.allocated p true) p false⟩, .thrown)
  | .completes =>
    (⟨{ s.mem with links := links, used := p + 1, value := Function.update s.mem.value p (some v) },
      Function.update s.allocated p true⟩, .returned (.node p))

/-- `emplace`, and `insert` of one element. -/
def emplace (l : J) (pos : Iter J) (v : T) (o : Outcome) (s : Heap J T A) :
    Heap J T A × Exit (Iter J) :=
  match createNode (s.mem.links.prev pos) pos v o s with
  | (s, .thrown) => (s, .thrown)
  | (s, .returned node) =>
    let links := s.mem.links.setNext (s.mem.links.prev pos) node
    ({ s with mem := setSize l (s.mem.size l + 1) { s.mem with links := links.setPrev pos node } },
      .returned node)

/-- A node is destroyed and deallocated once. -/
def destroyNode (node : Iter J) (s : Heap J T A) : Option (Heap J T A) :=
  match node with
  | .node n =>
    if s.allocated n
      then (Lists.destroyNode node s.mem).map fun mem => ⟨mem, Function.update s.allocated n false⟩
      else none
  | .head _ => none

def erase (l : J) (pos : Iter J) (s : Heap J T A) : Option (Heap J T A × Iter J) :=
  let prev := s.mem.links.prev pos
  let next := s.mem.links.next pos
  (destroyNode pos s).map fun s =>
    ({ s with
      mem := setSize l (s.mem.size l - 1)
        { s.mem with links := (s.mem.links.setNext prev next).setPrev next prev } }, next)

/-- The loop of the `catch` block. -/
def rollback : Nat → J → Iter J → Heap J T A → Option (Heap J T A)
  | 0, _, _, s => some s
  | n + 1, l, pos, s => (erase l pos s).bind fun (s, pos) => rollback n l pos s

/-- The loop of `insert`, with `n` elements inserted. The range has iterators of its own: what they
read is not written. -/
def insertLoop (prev : I → I) (get : I → T) (outcome : Nat → Outcome) :
    Nat → J → Iter J → I → I → Nat → Heap J T A → Option (Heap J T A × Exit (Iter J))
  | 0, _, _, _, _, _, _ => none
  | fuel + 1, l, pos, first, last, n, s =>
    if first = last then some (s, .returned pos)
    else
      match emplace l pos (get (prev last)) (outcome n) s with
      | (s, .returned pos) => insertLoop prev get outcome fuel l pos first (prev last) (n + 1) s
      | (s, .thrown) => (rollback n l pos s).map (·, .thrown)

def insert (prev : I → I) (get : I → T) (outcome : Nat → Outcome) (fuel : Nat) (l : J)
    (pos : Iter J) (first last : I) (s : Heap J T A) : Option (Heap J T A × Exit (Iter J)) :=
  insertLoop prev get outcome fuel l pos first last 0 s

end Heap

/-- The elements from `first` to `last`, which is reached from behind. -/
inductive Range (prev : I → I) (get : I → T) (first : I) : I → List T → Prop
  | nil : Range prev get first first []
  | snoc {last : I} {vs : List T} : Range prev get first (prev last) vs → first ≠ last →
      Range prev get first last (vs ++ [get (prev last)])

/-- Lists in a heap: their nodes are allocated, and numbers that are not given out are free. -/
structure HeapRep (s : Heap J T A) (nodes : J → List Nat) (seq : J → List T) : Prop where
  rep : Rep s.mem nodes seq
  live : ∀ l, ∀ n ∈ nodes l, s.allocated n = true
  free : ∀ n, s.mem.used ≤ n → s.allocated n = false

/-- What is there after the nodes of `new` have been created; other nodes are as before. -/
structure Grown (s₀ s : Heap J T A) (new : List Nat) : Prop where
  others : ∀ n, n ∉ new → s.mem.value n = s₀.mem.value n ∧ s.allocated n = s₀.allocated n
  absent : ∀ n ∈ new, s₀.mem.value n = none ∧ s₀.allocated n = false

variable {s s₀ : Heap J T A} {nodes : J → List Nat} {seq : J → List T} {l : J} {n : Nat}
    {xs zs new : List Nat} {ys vs ws : List T} {v : T}

omit [DecidableEq J] in
/-- A node number that is not given out is new. -/
theorem HeapRep.fresh (hr : HeapRep s nodes seq) (hg : Grown s₀ s new)
    (hnew : ∀ n ∈ new, n ∈ nodes l) :
    s₀.mem.value s.mem.used = none ∧ s₀.allocated s.mem.used = false := by
  have hnot : s.mem.used ∉ new := fun hm => absurd (hr.rep.lt_used (hnew _ hm)) (Nat.lt_irrefl _)
  obtain ⟨hv, ha⟩ := hg.others _ hnot
  exact ⟨hv ▸ hr.rep.fresh _ le_rfl, ha ▸ hr.free _ le_rfl⟩

/-- An element is inserted. -/
theorem HeapRep.emplace (hr : HeapRep s nodes seq) (hg : Grown s₀ s new)
    (hnew : ∀ n ∈ new, n ∈ nodes l) (hn : nodes l = xs ++ zs) (hs : seq l = ys ++ ws)
    (hlen : xs.length = ys.length) (v : T) :
    ∃ s', Heap.emplace l (firstOf l zs) v .completes s = (s', .returned (.node s.mem.used)) ∧
      HeapRep s' (Function.update nodes l (xs ++ s.mem.used :: zs))
        (Function.update seq l (ys ++ v :: ws)) ∧
      Grown s₀ s' (s.mem.used :: new) := by
  refine ⟨_, rfl, ⟨hr.rep.emplace hn hs hlen v, fun g k hk => ?_, fun k hk => ?_⟩, fun k hk => ?_,
    fun k hk => ?_⟩
  · show Function.update s.allocated s.mem.used true k = true
    by_cases hku : k = s.mem.used
    · rw [hku, Function.update_self]
    · rw [Function.update_of_ne hku]
      rw [Function.update_apply] at hk
      split at hk
      · refine hr.live l k ?_
        rw [hn]
        simp only [List.mem_append, List.mem_cons] at hk ⊢
        tauto
      · exact hr.live g k hk
  · change s.mem.used + 1 ≤ k at hk
    show Function.update s.allocated s.mem.used true k = false
    rw [Function.update_of_ne (by omega)]
    exact hr.free k (by omega)
  · obtain ⟨hku, hk⟩ := not_or.mp (fun h => hk (List.mem_cons.mpr h))
    show Function.update s.mem.value s.mem.used (some v) k = _ ∧
      Function.update s.allocated s.mem.used true k = _
    rw [Function.update_of_ne hku, Function.update_of_ne hku]
    exact hg.others k hk
  · rcases List.mem_cons.mp hk with rfl | hk
    · exact hr.fresh hg hnew
    · exact hg.absent k hk

/-- Either throw leaves lists and allocations as they are. -/
theorem HeapRep.emplace_throws (hr : HeapRep s nodes seq) {o : Outcome} (ho : o ≠ .completes)
    (l : J) (pos : Iter J) (v : T) :
    ∃ s', Heap.emplace l pos v o s = (s', .thrown) ∧ HeapRep s' nodes seq ∧
    s'.mem.value = s.mem.value ∧
      s'.allocated = s.allocated := by
  cases o with
  | completes => exact absurd rfl ho
  | allocationThrows => exact ⟨s, rfl, hr, rfl, rfl⟩
  | constructorThrows =>
    have hback :
        Function.update (Function.update s.allocated s.mem.used true) s.mem.used false =
          s.allocated := by
      rw [Function.update_idem, ← hr.free _ le_rfl, Function.update_eq_self]
    have hout : ∀ g, ∀ a ∈ cycle g (nodes g), a ≠ .node s.mem.used := fun g a ha he => by
      rw [he, node_mem_cycle] at ha
      exact absurd (hr.rep.lt_used ha) (Nat.lt_irrefl _)
    refine ⟨_, rfl,
      ⟨⟨hr.rep.family.congr fun g a ha => ⟨?_, ?_⟩, hr.rep.values, fun n hn => ?_, hr.rep.size⟩, ?_,
        ?_⟩, rfl, hback⟩
    · exact Function.update_of_ne (hout g a ha) _ _
    · exact Function.update_of_ne (hout g a ha) _ _
    · exact hr.rep.fresh n (Nat.le_of_succ_le hn)
    · rw [hback]
      exact hr.live
    · rw [hback]
      exact fun n hn => hr.free n (Nat.le_of_succ_le hn)

/-- An element is taken out. -/
theorem HeapRep.erase (hr : HeapRep s nodes seq) (hn : nodes l = xs ++ n :: zs)
    (hs : seq l = ys ++ v :: ws) (hlen : xs.length = ys.length) :
    ∃ s', Heap.erase l (.node n) s = some (s', firstOf l zs) ∧
      HeapRep s' (Function.update nodes l (xs ++ zs)) (Function.update seq l (ys ++ ws)) ∧
      s'.mem.value = Function.update s.mem.value n none ∧
      s'.allocated = Function.update s.allocated n false := by
  have hmem : n ∈ nodes l := hn ▸ List.mem_append_right _ List.mem_cons_self
  obtain ⟨m', heq, hr', _⟩ := hr.rep.erase hn hs hlen
  obtain ⟨w, hw⟩ := hr.rep.live hmem
  rw [Lists.erase, destroyNode_of_live hw, Option.map_some, Option.some.injEq, Prod.mk.injEq] at heq
  obtain ⟨hm', hnext⟩ := heq
  rw [hnext] at hm'
  have hd : (xs ++ n :: zs).Nodup := hn ▸ hr.rep.family.nodup l
  refine ⟨⟨m', Function.update s.allocated n false⟩, ?_, ⟨hr', fun g k hk => ?_, fun k hk => ?_⟩,
    ?_, rfl⟩
  · rw [Heap.erase, Heap.destroyNode, if_pos (hr.live l n hmem), destroyNode_of_live hw,
      Option.map_some, Option.map_some, hnext, ← hm']
  · show Function.update s.allocated n false k = true
    have hkn : k ≠ n := fun he => by
      rw [he, Function.update_apply] at hk
      split at hk
      · exact (List.nodup_cons.mp (List.nodup_middle.mp hd)).1 hk
      · next hg => exact hg (hr.rep.family.unique g l n hk hmem)
    rw [Function.update_of_ne hkn]
    rw [Function.update_apply] at hk
    split at hk
    · refine hr.live l k ?_
      rw [hn]
      simp only [List.mem_append, List.mem_cons] at hk ⊢
      tauto
    · exact hr.live g k hk
  · show Function.update s.allocated n false k = false
    rw [Function.update_apply]
    split
    · rfl
    · have hused : m'.used = s.mem.used := by rw [← hm']; rfl
      exact hr.free k (hused ▸ hk)
  · rw [← hm']
    rfl

/-- The nodes that were created are erased again. -/
theorem HeapRep.rollback (hr : HeapRep s nodes seq) (hg : Grown s₀ s new)
    (hn : nodes l = xs ++ (new ++ zs)) (hs : seq l = ys ++ (vs ++ ws))
    (hlen : xs.length = ys.length) (hlen' : new.length = vs.length) :
    ∃ s', Heap.rollback new.length l (firstOf l (new ++ zs)) s = some s' ∧
      HeapRep s' (Function.update nodes l (xs ++ zs)) (Function.update seq l (ys ++ ws)) ∧
      Grown s₀ s' [] := by
  induction new generalizing s nodes seq vs with
  | nil =>
    obtain rfl : vs = [] := List.length_eq_zero_iff.mp hlen'.symm
    rw [List.nil_append] at hn hs
    rw [← hn, ← hs, Function.update_eq_self, Function.update_eq_self]
    exact ⟨s, rfl, hr, hg⟩
  | cons n new ih =>
    obtain ⟨v, vs, rfl⟩ := List.exists_cons_of_length_eq_add_one hlen'.symm
    obtain ⟨s₁, heq, hr₁, hvalue, hallocated⟩ :=
      hr.erase (show nodes l = xs ++ n :: (new ++ zs) from hn)
      (show seq l = ys ++ v :: (vs ++ ws) from hs) hlen
    have hg₁ : Grown s₀ s₁ new := by
      refine ⟨fun k hk => ?_, fun k hk => hg.absent k (List.mem_cons_of_mem n hk)⟩
      rw [hvalue, hallocated]
      by_cases hkn : k = n
      · obtain ⟨hv, ha⟩ := hg.absent n List.mem_cons_self
        rw [hkn, Function.update_self, Function.update_self, hv, ha]
        exact ⟨rfl, rfl⟩
      · rw [Function.update_of_ne hkn, Function.update_of_ne hkn]
        exact hg.others k fun hm => (List.mem_cons.mp hm).elim hkn hk
    obtain ⟨s', hrest, hr', hg'⟩ :=
      ih hr₁ hg₁ (Function.update_self _ _ _) (Function.update_self _ _ _) (Nat.succ.inj hlen')
    rw [Function.update_idem, Function.update_idem] at hr'
    refine ⟨s', ?_, hr', hg'⟩
    show Heap.rollback (new.length + 1) l (.node n) s = _
    rw [Heap.rollback, heq, Option.bind_some]
    exact hrest

omit [DecidableEq J] in
theorem Grown.same (hg : Grown s₀ s []) : s.mem.value = s₀.mem.value ∧ s.allocated = s₀.allocated :=
  ⟨funext fun n => (hg.others n List.not_mem_nil).1,
    funext fun n => (hg.others n List.not_mem_nil).2⟩

variable {prev : I → I} {get : I → T} {first last : I} {fuel : Nat}

/-- The loop of `insert`, with the elements of `ws` behind those of `us` in. -/
theorem HeapRep.insertLoop (outcome : Nat → Outcome) {us : List T}
    (hrange : Range prev get first last us) (hr : HeapRep s nodes seq) (hg : Grown s₀ s new)
    (hn : nodes l = xs ++ (new ++ zs)) (hs : seq l = ys ++ (vs ++ ws))
    (hlen : xs.length = ys.length) (hlen' : new.length = vs.length) (hfuel : us.length < fuel) :
    ∃ s' e, Heap.insertLoop prev get outcome fuel l
      (firstOf l (new ++ zs)) first last new.length s = some (s', e) ∧
      ((∀ i < us.length, outcome (new.length + i) = .completes) →
        ∃ new', e = .returned (firstOf l (new' ++ zs)) ∧
        HeapRep s' (Function.update nodes l (xs ++ (new' ++ zs)))
          (Function.update seq l (ys ++ (us ++ (vs ++ ws))))) ∧
      (¬ (∀ i < us.length, outcome (new.length + i) = .completes) → e = .thrown ∧
        HeapRep s' (Function.update nodes l (xs ++ zs)) (Function.update seq l (ys ++ ws)) ∧
        Grown s₀ s' []) := by
  induction hrange generalizing s nodes seq new vs fuel with
  | nil =>
    obtain ⟨fuel, rfl⟩ := Nat.exists_eq_add_one_of_ne_zero (Nat.ne_of_gt (Nat.zero_lt_of_lt hfuel))
    refine ⟨s, .returned (firstOf l (new ++ zs)), by rw [Heap.insertLoop, if_pos rfl],
      fun _ => ⟨new, rfl, ?_⟩, fun h => absurd nofun h⟩
    rw [List.nil_append, ← hn, ← hs, Function.update_eq_self, Function.update_eq_self]
    exact hr
  | @snoc last us _ hne ih =>
    obtain ⟨fuel, rfl⟩ := Nat.exists_eq_add_one_of_ne_zero (Nat.ne_of_gt (Nat.zero_lt_of_lt hfuel))
    rw [List.length_append, List.length_singleton] at hfuel ⊢
    rw [Heap.insertLoop, if_neg hne]
    by_cases ho : outcome new.length = .completes
    · have hnew : ∀ n ∈ new, n ∈ nodes l :=
        fun n hm => hn ▸ List.mem_append_right _ (List.mem_append_left _ hm)
      obtain ⟨s₁, heq, hr₁, hg₁⟩ := hr.emplace hg hnew hn hs hlen (get (prev last))
      rw [ho, heq]
      dsimp only
      obtain ⟨s', e, hloop, hreturned, hthrown⟩ := ih hr₁ hg₁ (Function.update_self _ _ _)
        (show Function.update seq l (ys ++ get (prev last) :: (vs ++ ws)) l =
            ys ++ ((get (prev last) :: vs) ++ ws) from
          Function.update_self _ _ _) (by rw [List.length_cons, List.length_cons, hlen'])
            (Nat.lt_of_succ_lt_succ hfuel)
      have hall : (∀ i < us.length + 1, outcome (new.length + i) = .completes) ↔
          ∀ i < us.length, outcome ((s.mem.used :: new).length + i) = .completes := by
        rw [List.length_cons]
        refine ⟨fun h i hi => ?_, fun h i hi => ?_⟩
        · rw [Nat.add_assoc, Nat.add_comm 1 i]
          exact h (i + 1) (by omega)
        · cases i with
          | zero => exact ho
          | succ i =>
            rw [Nat.add_comm i 1, ← Nat.add_assoc]
            exact h i (by omega)
      refine ⟨s', e, hloop, fun h => ?_, fun h => ?_⟩
      · obtain ⟨new', he, hr'⟩ := hreturned (hall.mp h)
        rw [Function.update_idem, Function.update_idem] at hr'
        exact ⟨new', he, by simpa using hr'⟩
      · obtain ⟨he, hr', hg'⟩ := hthrown (fun h' => h (hall.mpr h'))
        rw [Function.update_idem, Function.update_idem] at hr'
        exact ⟨he, hr', hg'⟩
    · obtain ⟨s₁, heq, hr₁, hvalue, hallocated⟩ :=
        hr.emplace_throws ho l (firstOf l (new ++ zs)) (get (prev last))
      have hg₁ : Grown s₀ s₁ new :=
        ⟨fun n hm => by rw [hvalue, hallocated]; exact hg.others n hm, hg.absent⟩
      obtain ⟨s', hback, hr', hg'⟩ := hr₁.rollback hg₁ hn hs hlen hlen'
      rw [heq]
      dsimp only
      refine ⟨s', .thrown, by rw [hback, Option.map_some],
        fun h => absurd (h 0 (Nat.succ_pos _)) ho, fun _ => ⟨rfl, hr', hg'⟩⟩

/-- `insert` of a foreign range has the strong guarantee: if every element goes in, the range is in
front of the position; otherwise it throws, and lists, nodes and allocations are as before. -/
theorem insert_strong (outcome : Nat → Outcome) {us : List T} (hr : HeapRep s nodes seq)
    (hn : nodes l = xs ++ zs) (hs : seq l = ys ++ ws) (hlen : xs.length = ys.length)
    (hrange : Range prev get first last us) (hfuel : us.length < fuel) :
    ∃ s' e, Heap.insert prev get outcome fuel l (firstOf l zs) first last s = some (s', e) ∧
      ((∀ i < us.length, outcome i = .completes) → ∃ new, e = .returned (firstOf l (new ++ zs)) ∧
        HeapRep s' (Function.update nodes l (xs ++ (new ++ zs)))
          (Function.update seq l (ys ++ (us ++ ws)))) ∧
      (¬ (∀ i < us.length, outcome i = .completes) → e = .thrown ∧ HeapRep s' nodes seq ∧
        s'.mem.value = s.mem.value ∧
        s'.allocated = s.allocated) := by
  obtain ⟨s', e, hloop, hreturned, hthrown⟩ := HeapRep.insertLoop outcome hrange hr
    (⟨fun _ _ => ⟨rfl, rfl⟩, nofun⟩ : Grown s s []) (show nodes l = xs ++ ([] ++ zs) from hn)
    (show seq l = ys ++ ([] ++ ws) from hs) hlen rfl hfuel
  simp only [List.length_nil, Nat.zero_add, List.nil_append] at hloop hreturned hthrown
  refine ⟨s', e, hloop, hreturned, fun h => ?_⟩
  obtain ⟨he, hr', hg⟩ := hthrown h
  rw [← hn, ← hs, Function.update_eq_self, Function.update_eq_self] at hr'
  exact ⟨he, hr', hg.same⟩

/-- Two elements of an array go into an empty list, but the constructor of the one that comes second
throws. -/
theorem insert_second_throws :
    ∃ s' e, Heap.insert (fun i => i - 1) id
      (fun i => if i = 1 then .constructorThrows else .completes) 3 ()
      (.head ()) 0 2 ⟨.empty (), fun _ => false⟩ = some (s', e) ∧
    e = .thrown ∧ HeapRep (J := Unit) (A := Unit) s' (fun _ => []) (fun _ => []) ∧
    s'.allocated = fun _ => false := by
  have hr : HeapRep (⟨.empty (), fun _ => false⟩ : Heap Unit Nat Unit) (fun _ => []) fun _ => [] :=
    ⟨Rep.empty (), nofun, fun _ _ => rfl⟩
  have hrange : Range (fun i => i - 1) id 0 2 ([] ++ [0] ++ [1]) :=
    .snoc (.snoc .nil Nat.zero_ne_one) nofun
  obtain ⟨s', e, heq, _, hthrown⟩ :=
    insert_strong (fun i => if i = 1 then .constructorThrows else .completes) hr
    (show (fun _ => [] : Unit → List Nat) () = [] ++ [] from rfl)
      (show (fun _ => [] : Unit → List Nat) () = [] ++ [] from rfl) rfl
    hrange (Nat.lt_succ_self 2)
  obtain ⟨he, hr', _, ha⟩ := hthrown fun h => nomatch h 1 Nat.one_lt_two
  exact ⟨s', e, heq, he, hr', ha⟩

end Gpcl.Lists
