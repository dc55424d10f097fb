import Gpcl.Lib.Runs
import Gpcl.SharedPtr.Tasks

/-! # The operations on handles

Every operation that clients may do succeeds in a sound world and leaves a sound one, and so does
every task. -/
namespace Gpcl.SharedPtr.Graph
open Lib.Runs Lib.Tokens

variable {w w' : World} {N M : Multiset Task} {b : Nat} {c c' : Block} {o : Object}
  {h x y : Handle} {k k₁ : Kind} {l : Loc}
  {t : Task} {ts new own : List Task} {st : Stage}

theorem Handle.drop_eq (hs : x.s = some b) : x.drop = [⟨x.kind.drop, b⟩] := by rw [Handle.drop, hs]

theorem grows_add (N : Multiset Task) (st : Stage) (b : Nat) :
    Grows (tasksFor N b) (tasksFor (N + ([⟨st, b⟩] : List Task)) b) st := by
  intro s
  have hsame : (⟨s, b⟩ : Task) = ⟨st, b⟩ ↔ s = st :=
    ⟨fun h => congrArg Task.stage h, fun h => by rw [h]⟩
  simp only [tasksFor, Multiset.count_add, Multiset.coe_singleton, Multiset.count_singleton, hsame]

theorem tasksFor_add {b' : Nat} (hb : b' ≠ b) (s : Stage) :
    tasksFor (N + ([⟨st, b⟩] : List Task)) b' s = tasksFor N b' s := by
  have hne : (⟨s, b'⟩ : Task) ≠ ⟨st, b⟩ := fun h => hb (congrArg Task.b h)
  simp only [tasksFor, Multiset.count_add, Multiset.coe_singleton, Multiset.count_singleton, hne,
    if_false, add_zero]

namespace World

/-! ## Copies and locks -/

/-- One more handle is counted. -/
structure Gained (w : World) (N : Multiset Task) (w' : World) (x : Handle) : Prop where
  accounts : w'.Accounts (N + x.drop)
  dues : w'.dues = w.dues
  places : ∀ l, w'.handleAt l = w.handleAt l

namespace Accounts

theorem gains (h : w.Accounts N) (hb : w.block b = some c) (hs : x.s = some b)
    (hc : Counted c' (tasksFor (N + x.drop) b)) (hobject : c'.object = c.object) :
    Gained w N (w.setBlock b c') x := by
  refine ⟨h.update hb hc ?_ fun b' hne st => ?_, dues_counters hb hobject,
    handleAt_counters hb hobject⟩
  · intro o t ho ht
    rw [hobject] at ho
    exact h.this_of_block hb ho ht
  · rw [Handle.drop_eq hs]
    exact tasksFor_add hne st

theorem gains_null (h : w.Accounts N) (hs : x.s = none) : Gained w N w x := by
  refine ⟨h.congr ?_, rfl, fun _ => rfl⟩
  rw [Handle.drop, hs]
  exact (add_zero N).symm

theorem acquire (h : w.Accounts N)
    (hs : ∀ b, x.s = some b → ⟨.put, b⟩ ∈ N ∨ x.kind = .weak ∧ ⟨.weakPut, b⟩ ∈ N) :
    ∃ w', w.acquire x = some w' ∧ Gained w N w' x := by
  cases hx : x.s with
  | none => exact ⟨w, by rw [World.acquire, hx], h.gains_null hx⟩
  | some b =>
    have hdrop := Handle.drop_eq hx
    cases hk : x.kind with
    | shared =>
      have hput : ⟨.put, b⟩ ∈ N := (hs b hx).resolve_right fun hweak => by simp [hk] at hweak
      obtain ⟨c, hb, hc⟩ := h.block_of_task hput
      obtain ⟨huse, hcounted⟩ := hc.get (Multiset.count_pos.mpr hput) (grows_add N .put b)
      refine ⟨w.setBlock b { c with use := c.use + 1 }, ?_, h.gains hb hx ?_ rfl⟩
      · simp only [World.acquire, hx, hk, get, hb, Option.bind_eq_bind, Option.bind_some, guard,
          if_pos huse, Option.pure_def]
      · rw [hdrop, hk]
        exact hcounted
    | weak =>
      have hmem : ∃ c, w.block b = some c ∧ Counted c (tasksFor N b) := by
        obtain hput | ⟨-, hweak⟩ := hs b hx
        · exact h.block_of_task hput
        · exact h.block_of_task hweak
      obtain ⟨c, hb, hc⟩ := hmem
      have hpos : 0 < tasksFor N b .put ∨ 0 < tasksFor N b .weakPut :=
        (hs b hx).imp Multiset.count_pos.mpr fun hweak => Multiset.count_pos.mpr hweak.2
      obtain ⟨hweak, hcounted⟩ := hc.weakGet hpos (grows_add N .weakPut b)
      refine ⟨w.setBlock b { c with weak := c.weak + 1 }, ?_, h.gains hb hx ?_ rfl⟩
      · simp only [World.acquire, hx, hk, weakGet, hb, Option.bind_eq_bind, Option.bind_some, guard,
          if_pos hweak, Option.pure_def]
      · rw [hdrop, hk]
        exact hcounted

/-- `lock()` makes a handle that owns exactly when the object has an owner. -/
theorem lock (h : w.Accounts N) (hs : ∀ b, x.s = some b → ⟨.weakPut, b⟩ ∈ N) :
    ∃ w' y, w.lock x = some (w', y) ∧ y.kind = .shared ∧
    Gained w N w' y ∧ ∀ b c, x.s = some b → w.block b = some c →
    y = if 0 < c.use then ⟨.shared, x.p, some b⟩ else .null .shared := by
  cases hx : x.s with
  | none => exact ⟨w, _, by rw [World.lock, hx], rfl, h.gains_null rfl, fun b _ hb => nomatch hb⟩
  | some b =>
    obtain ⟨c, hb, hc⟩ := h.block_of_task (hs b hx)
    have hcount := hc.tallied
    rw [tallied_iff] at hcount
    have hpos : 0 < tasksFor N b .weakPut := Multiset.count_pos.mpr (hs b hx)
    have hweak : 0 < c.weak := by omega
    by_cases huse : 0 < c.use
    · obtain ⟨-, hcounted⟩ := hc.get (by omega) (grows_add N .put b)
      refine ⟨w.setBlock b { c with use := c.use + 1 }, ⟨.shared, x.p, some b⟩, ?_, rfl,
        h.gains hb rfl hcounted rfl, ?_⟩
      · simp only [World.lock, hx, lockBlock, hb, Option.bind_eq_bind, Option.bind_some, guard,
          if_pos hweak, if_pos huse,
          Option.pure_def, Option.map_some, if_true]
      · intro b' c' hb' hc'
        cases hb'
        rw [Option.some.inj (hc'.symm.trans hb), if_pos huse]
    · refine ⟨w, .null .shared, ?_, rfl, h.gains_null rfl, ?_⟩
      · simp only [World.lock, hx, lockBlock, hb, Option.bind_eq_bind, Option.bind_some, guard,
          if_pos hweak, if_neg huse,
          Option.pure_def, Option.map_some, Bool.false_eq_true, if_false]
      · intro b' c' hb' hc'
        cases hb'
        rw [Option.some.inj (hc'.symm.trans hb), if_neg huse]

end Accounts

/-! ## A new control block -/

def append (w : World) (c : Block) : World := { w with blocks := w.blocks ++ [some c] }

theorem block_append (b : Nat) :
    (w.append c).block b = if b = w.blocks.length then some c else w.block b := by
  simp only [append, block]
  by_cases hb : b = w.blocks.length
  · rw [if_pos hb, hb, List.getElem?_append_right (Nat.le_refl _), Nat.sub_self]
    rfl
  · rw [if_neg hb]
    by_cases hlt : b < w.blocks.length
    · rw [List.getElem?_append_left hlt]
    · have hlength : (w.blocks ++ [some c]).length ≤ b := by
        rw [List.length_append, List.length_singleton]
        omega
      rw [List.getElem?_eq_none hlength, List.getElem?_eq_none (by omega)]

theorem setBlock_append : (w.append c).setBlock w.blocks.length c' = w.append c' := by
  simp [append, setBlock]

theorem block_length : w.block w.blocks.length = none := by
  rw [block, List.getElem?_eq_none (Nat.le_refl _)]
  rfl

theorem dues_append : (w.append c).dues = w.dues + c.due := by
  simp only [dues, append, List.map_append, List.sum_append, List.map_cons, List.map_nil,
    List.sum_cons, List.sum_nil, Option.elim_some]
  abel

theorem handleAt_append (hl : w.handleAt l = some h) : (w.append c).handleAt l = some h := by
  cases l with
  | var v => exact hl
  | member b i =>
    obtain ⟨o, ho, hi⟩ := Option.bind_eq_some_iff.mp hl
    obtain ⟨d, hb, hd⟩ := object_some ho
    have hne : b ≠ w.blocks.length := fun heq => by
      rw [heq, block_length] at hb
      cases hb
    have hobject : (w.append c).object b = some o := by
      rw [object, block_append, if_neg hne, hb]
      exact hd
    rw [handleAt, hobject]
    exact hi

namespace Accounts

theorem append (h : w.Accounts N) (hc : Counted c (tasksFor M w.blocks.length))
    (hthis : ∀ o t, c.object = some o → o.weakThis = some t →
      t = ⟨.weak, o.address, some w.blocks.length⟩)
    (helse : ∀ b, b ≠ w.blocks.length → ∀ st, tasksFor M b st = tasksFor N b st) :
    (w.append c).Accounts M := by
  refine h.change block_append (fun d hd => ?_) (fun hd => nomatch hd)
    (fun d o t hd ho ht => ?_) helse
  · cases hd
    exact hc
  · cases hd
    exact hthis o t ho ht

end Accounts

/-! ## Expressions -/

/-- What is so when an expression has its value. -/
structure Evaluated (w w' : World) (r : Option Handle) (k : Kind) : Prop where
  accounts : w'.Accounts (w'.dues + r.elim 0 fun h => (h.drop : Multiset Task))
  kind : ∀ h, r = some h → h.kind = k
  places : ∀ l h, w.handleAt l = some h → ∃ h', w'.handleAt l = some h' ∧ h'.kind = h.kind

theorem Gained.evaluated (h : Gained w w.dues w' x) (hy : y.drop = x.drop) :
    Evaluated w w' (some y) y.kind := by
  refine ⟨?_, ?_, fun l x hl => ⟨x, by rw [h.places, hl], rfl⟩⟩
  · rw [Option.elim_some, hy, h.dues]
    exact h.accounts
  · intro z hz
    cases hz
    rfl

namespace Accounts

/-- A handle that was moved from is null; what it counted for goes with the new one. -/
theorem moved (h : w.Accounts w.dues) (hl : w.handleAt l = some x) (hy : y.drop = x.drop)
    (hk : y.kind = x.kind) :
    Evaluated w (w.setHandle l (.null x.kind)) (some y) x.kind := by
  have hdues := dues_setHandle hl (.null x.kind)
  rw [show (Handle.null x.kind).drop = [] from rfl, Multiset.coe_nil, add_zero] at hdues
  refine ⟨?_, ?_, fun r z hr => ?_⟩
  · rw [Option.elim_some, hy, hdues]
    exact h.setHandle hl _
  · intro z hz
    cases hz
    exact hk
  · rw [handleAt_setHandle hl]
    by_cases hrl : r = l
    · rw [hrl, hl] at hr
      cases hr
      exact ⟨_, if_pos hrl, rfl⟩
    · exact ⟨z, by rw [if_neg hrl, hr], rfl⟩

theorem lockOrThrow (h : w.Accounts w.dues) (hs : ∀ b, x.s = some b → ⟨.weakPut, b⟩ ∈ w.dues) :
    ∃ w' y, w.lock x = some (w', y) ∧ Evaluated w w' (some y) .shared ∧
      Evaluated w w' (if y.s = none then none else some y) .shared := by
  obtain ⟨w', y, hlock, hk, hgained, -⟩ := h.lock hs
  have heval := hgained.evaluated rfl
  rw [hk] at heval
  refine ⟨w', y, hlock, heval, ?_⟩
  by_cases hnull : y.s = none
  · rw [if_pos hnull]
    refine ⟨?_, nofun, heval.places⟩
    have haccounts := heval.accounts
    rwa [Option.elim_some, Handle.drop, hnull] at haccounts
  · rw [if_neg hnull]
    exact heval

end Accounts

/-- The world in which `shared_ptr(ptr)` has made its object and its control block. -/
theorem make_eq (w : World) (address : Nat) (members : List Kind) (enables : Bool) :
    (w.create address members enables).enablesSharedFromThis w.blocks.length = some
      (if enables then (w.append ⟨2, 2, some ⟨address, members.map .null,
        some ⟨.weak, address, some w.blocks.length⟩⟩⟩).leave [⟨.put, w.blocks.length⟩]
      else w.append ⟨1, 1, some ⟨address, members.map .null, none⟩⟩) := by
  cases enables with
  | false =>
    rw [show w.create address members false =
      w.append ⟨1, 1, some ⟨address, members.map .null, none⟩⟩ from rfl, enablesSharedFromThis,
      block_append, if_pos rfl]
    rfl
  | true =>
    rw [show w.create address members true =
      w.append ⟨1, 1, some ⟨address, members.map .null, some (.null .weak)⟩⟩ from rfl,
      enablesSharedFromThis, block_append, if_pos rfl]
    simp only [Option.bind_eq_bind, Option.bind_some, expired, Handle.null, if_true, get, weakGet,
      block_append, setBlock_append, guard,
      Int.one_pos, Option.pure_def, setObject, Handle.drop, List.nil_append]
    rfl

theorem drops_null (members : List Kind) :
    (members.map Handle.null).reverse.flatMap Handle.drop = [] := by
  refine List.flatMap_eq_nil_iff.mpr fun h hh => ?_
  obtain ⟨k, -, rfl⟩ := List.mem_map.mp (List.mem_reverse.mp hh)
  rfl

theorem due_members (address : Nat) (members : List Kind) (use weak : Int) (t : Option Handle) :
    (⟨use, weak, some ⟨address, members.map .null, t⟩⟩ : Block).due =
    ((t.map Handle.drop).getD [] : List Task) := by
  rw [Block.due, Option.elim_some, Object.drop, drops_null, List.nil_append]

namespace Accounts

theorem make (h : w.Accounts w.dues) (address : Nat) (members : List Kind) (enables : Bool) :
    ∃ w', (w.create address members enables).enablesSharedFromThis w.blocks.length = some w' ∧
      Evaluated w w' (some ⟨.shared, address, some w.blocks.length⟩) .shared := by
  have hfresh : tasksFor w.dues w.blocks.length = fun _ => 0 := funext (h.absent _ block_length)
  have hfirst := grows_add w.dues .put w.blocks.length
  have hkind : ∀ x : Handle, some (⟨.shared, address, some w.blocks.length⟩ : Handle) = some x →
    x.kind = .shared := fun x hx => by
    cases hx
    rfl
  rw [hfresh] at hfirst
  rw [make_eq]
  cases enables with
  | false =>
    refine ⟨_, rfl, ?_, hkind, fun l x hl => ⟨x, handleAt_append hl, rfl⟩⟩
    rw [if_neg Bool.false_ne_true, dues_append, due_members, Option.elim_some, Handle.drop_eq rfl,
      Option.map_none, Option.getD_none,
      Multiset.coe_nil, add_zero]
    refine h.append (Counted.first hfirst) (fun o t ho ht => ?_) fun b hb st => ?_
    · cases ho
      cases ht
    · exact tasksFor_add hb st
  | true =>
    refine ⟨_, rfl, ?_, hkind, fun l x hl => ⟨x, handleAt_append hl, rfl⟩⟩
    -- the handle, the temporary that `weak_this` is assigned from, and `weak_this`
    have hsum : w.dues + ([⟨.weakPut, w.blocks.length⟩] : List Task) +
          ([⟨.put, w.blocks.length⟩] : List Task) + ([⟨.put, w.blocks.length⟩] : List Task) =
        w.dues + ([⟨.put, w.blocks.length⟩] : List Task) +
          ([⟨.put, w.blocks.length⟩] : List Task) +
          ([⟨.weakPut, w.blocks.length⟩] : List Task) := by abel
    rw [if_pos rfl, dues_leave, dues_append, due_members, Option.elim_some, Handle.drop_eq rfl]
    change Accounts _ (w.dues + ([⟨.weakPut, w.blocks.length⟩] : List Task) +
      ([⟨.put, w.blocks.length⟩] : List Task) + ([⟨.put, w.blocks.length⟩] : List Task))
    rw [hsum]
    have hput : ∀ N : Multiset Task,
        0 < tasksFor (N + ([⟨.put, w.blocks.length⟩] : List Task)) w.blocks.length .put := fun N =>
      Multiset.count_pos.mpr (Multiset.mem_add.mpr (.inr (List.mem_singleton_self _)))
    have hone := Counted.first (o := ⟨address, members.map .null,
      some ⟨.weak, address, some w.blocks.length⟩⟩) hfirst
    obtain ⟨-, htwo⟩ := hone.get (hput _) (grows_add _ .put _)
    obtain ⟨-, hthree⟩ := htwo.weakGet (.inl (hput _)) (grows_add _ .weakPut _)
    have happend := h.append hthree (fun o t ho ht => ?_) fun b hb st => ?_
    · exact ⟨happend.counted, happend.absent, happend.this⟩
    · cases ho
      cases ht
      rfl
    · rw [tasksFor_add hb, tasksFor_add hb, tasksFor_add hb]

end Accounts

theorem mem_of_handleAt (hl : w.handleAt l = some x) (hs : x.s = some b) :
    ⟨x.kind.drop, b⟩ ∈ w.dues := by
  refine mem_dues_of_handleAt hl ?_
  rw [Handle.drop_eq hs]
  exact List.mem_singleton_self _

theorem kind_of_map (hk : (w.handleAt l).map Handle.kind = some k) :
    ∃ x, w.handleAt l = some x ∧ x.kind = k :=
  Option.map_eq_some_iff.mp hk

theorem kind_of_ite {k' : Kind}
    (hk : (if (w.handleAt l).map Handle.kind = some k then some k' else none) = some k₁) :
    k' = k₁ ∧ ∃ x, w.handleAt l = some x ∧ x.kind = k := by
  by_cases h : (w.handleAt l).map Handle.kind = some k
  · rw [if_pos h] at hk
    exact ⟨Option.some.inj hk, kind_of_map h⟩
  · rw [if_neg h] at hk
    cases hk

namespace Accounts

theorem copied (h : w.Accounts w.dues) (hl : w.handleAt l = some x) :
    ∃ w', w.acquire x = some w' ∧ Gained w w.dues w' x := by
  refine h.acquire fun b hs => ?_
  have hmem := mem_of_handleAt hl hs
  cases hk : x.kind with
  | shared => exact .inl (by rwa [hk] at hmem)
  | weak => exact .inr ⟨rfl, by rwa [hk] at hmem⟩

/-- A well typed expression has a value, or throws. -/
theorem eval (h : w.Accounts w.dues) {e : Expr} (hk : w.kindOf e = some k) :
    ∃ w' r, e.eval w = some (w', r) ∧ Evaluated w w' r k := by
  cases e with
  | null k' =>
    cases hk
    exact ⟨w, _, rfl, (h.gains_null (x := .null k) rfl).evaluated rfl⟩
  | make address members enables =>
    cases hk
    obtain ⟨w', hmake, heval⟩ := h.make address members enables
    exact ⟨w', _, by simp only [Expr.eval, hmake, Option.bind_eq_bind, Option.bind_some,
      Option.pure_def], heval⟩
  | copy l =>
    obtain ⟨x, hl, rfl⟩ := kind_of_map hk
    obtain ⟨w', hcopy, hgained⟩ := h.copied hl
    exact ⟨w', _, by simp only [Expr.eval, hl, hcopy, Option.bind_eq_bind, Option.bind_some,
      Option.pure_def], hgained.evaluated rfl⟩
  | move l =>
    obtain ⟨x, hl, rfl⟩ := kind_of_map hk
    exact ⟨_, _, by simp only [Expr.eval, hl, Option.bind_eq_bind, Option.bind_some,
      Option.pure_def], h.moved hl rfl rfl⟩
  | «alias» l p =>
    obtain ⟨rfl, x, hl, hx⟩ := kind_of_ite hk
    obtain ⟨w', hcopy, hgained⟩ := h.copied hl
    have heval := hgained.evaluated (y := { x with p := p }) rfl
    refine ⟨w', some { x with p := p }, ?_,
      (congrArg (Evaluated w w' (some { x with p := p })) hx).mp heval⟩
    simp only [Expr.eval, hl, hcopy, Option.bind_eq_bind, Option.bind_some, Option.pure_def]
  | aliasMove l p =>
    obtain ⟨rfl, x, hl, hx⟩ := kind_of_ite hk
    have heval := h.moved hl (y := { x with p := p }) rfl rfl
    refine ⟨w.setHandle l (.null x.kind), some { x with p := p }, ?_,
      (congrArg (Evaluated w _ (some { x with p := p })) hx).mp heval⟩
    simp only [Expr.eval, hl, Option.bind_eq_bind, Option.bind_some, Option.pure_def]
  | watch l =>
    obtain ⟨rfl, x, hl, hx⟩ := kind_of_ite hk
    obtain ⟨w', hwatch, hgained⟩ := h.acquire (x := { x with kind := .weak }) fun b hs => .inl (by
      have hmem := mem_of_handleAt hl hs
      rwa [hx] at hmem)
    exact ⟨w', _, by simp only [Expr.eval, hl, hwatch, Option.bind_eq_bind, Option.bind_some,
      Option.pure_def], hgained.evaluated rfl⟩
  | lock l =>
    obtain ⟨rfl, x, hl, hx⟩ := kind_of_ite hk
    obtain ⟨w', y, hlock, heval, -⟩ := h.lockOrThrow fun b hs => by
      have hmem := mem_of_handleAt hl hs
      rwa [hx] at hmem
    exact ⟨w', _, by simp only [Expr.eval, hl, hlock, Option.bind_eq_bind, Option.bind_some,
      Option.pure_def], heval⟩
  | fromWeak l =>
    obtain ⟨rfl, x, hl, hx⟩ := kind_of_ite hk
    obtain ⟨w', y, hlock, -, heval⟩ := h.lockOrThrow fun b hs => by
      have hmem := mem_of_handleAt hl hs
      rwa [hx] at hmem
    exact ⟨w', _, by simp only [Expr.eval, hl, hlock, Option.bind_eq_bind, Option.bind_some,
      Option.pure_def], heval⟩
  | sharedFromThis b =>
    obtain ⟨x, hthis, rfl⟩ := Option.map_eq_some_iff.mp hk
    obtain ⟨o, ho, hx⟩ := Option.bind_eq_some_iff.mp hthis
    have hx' := h.this b o x ho hx
    obtain ⟨w', y, hlock, -, heval⟩ := h.lockOrThrow (x := x) fun b' hs => by
      refine mem_dues_of_object ho (Object.mem_drop.mpr (.inr ⟨x, hx, ?_⟩))
      rw [Handle.drop_eq hs, hx']
      exact List.mem_singleton_self _
    exact ⟨w', _, by simp only [Expr.eval, ho, hx, hlock, Option.bind_eq_bind, Option.bind_some,
      Option.pure_def], heval⟩

/-! ## Operations and tasks -/

theorem performOp (h : w.Accounts w.dues) {o : Op} (hp : w.Permitted (.op o)) :
    ∃ w', w.performOp o = some w' ∧ w'.Accounts w'.dues := by
  cases o with
  | construct e =>
    obtain ⟨k, hk⟩ := hp
    obtain ⟨w', r, heval, hr⟩ := h.eval hk
    have haccounts := hr.accounts
    cases r with
    | none => exact ⟨w', by simp only [World.performOp, heval, Option.bind_eq_bind,
      Option.bind_some, Option.pure_def], by simpa using haccounts⟩
    | some x =>
      refine ⟨{ w' with vars := w'.vars ++ [some x] },
        by simp only [World.performOp, heval, Option.bind_eq_bind, Option.bind_some,
        Option.pure_def], ?_⟩
      have hdues : ({ w' with vars := w'.vars ++ [some x] } : World).dues = w'.dues + x.drop := by
        simp only [dues, List.map_append, List.sum_append, List.map_cons, List.map_nil,
          List.sum_cons, List.sum_nil, Option.elim_some]
        abel
      rw [hdues]
      exact ⟨haccounts.counted, haccounts.absent, haccounts.this⟩
  | assign l e =>
    obtain ⟨x, hl, hk⟩ := hp
    obtain ⟨w', r, heval, hr⟩ := h.eval hk
    have haccounts := hr.accounts
    cases r with
    | none => exact ⟨w', by simp only [World.performOp, heval, Option.bind_eq_bind,
      Option.bind_some, Option.pure_def], by simpa using haccounts⟩
    | some y =>
      obtain ⟨z, hz, -⟩ := hr.places l x hl
      refine ⟨(w'.setHandle l y).leave z.drop,
        by simp only [World.performOp, heval, hz, Option.bind_eq_bind, Option.bind_some,
        Option.pure_def], ?_⟩
      rw [dues_leave, dues_setHandle hz]
      have hset := haccounts.setHandle hz y
      exact ⟨hset.counted, hset.absent, hset.this⟩
  | swap l r =>
    obtain ⟨x, y, hl, hr, -⟩ := hp
    have hr' : (w.setHandle l y).handleAt r = some y := by
      rw [handleAt_setHandle hl]
      split
      · rfl
      · exact hr
    refine ⟨(w.setHandle l y).setHandle r x,
      by simp only [World.performOp, hl, hr, Option.bind_eq_bind, Option.bind_some,
      Option.pure_def], ?_⟩
    have hdues : ((w.setHandle l y).setHandle r x).dues = w.dues := by
      refine add_right_cancel (b := (y.drop : Multiset Task)) ?_
      rw [dues_setHandle hr', dues_setHandle hl]
    rw [hdues]
    exact (h.setHandle hl y).setHandle hr' x
  | destroy v =>
    obtain ⟨x, hl⟩ := hp
    refine ⟨_, by simp only [World.performOp, hl, Option.bind_eq_bind, Option.bind_some,
      Option.pure_def]; rfl, ?_⟩
    have hdues := dues_setVar hl none
    rw [Option.elim_none, add_zero] at hdues
    rw [dues_leave, hdues]
    exact ⟨h.counted, h.absent, h.this⟩

theorem dues_calls {i : Nat} {ts : List Task} (hi : w.calls[i]? = some ts) (us : List Task) :
    ({ w with calls := w.calls.set i us } : World).dues + ts = w.dues + us := by
  have hset := sum_map_set Multiset.ofList us hi
  simp only [dues]
  rw [add_assoc, hset, ← add_assoc]

/-- A task that is pending can be done, and what is left to do is less then. -/
theorem runTask (h : w.Accounts w.dues) {i : Nat} (hi : w.calls[i]? = some (t :: ts)) :
    ∃ w', w.perform (.run i) = some w' ∧ w'.Accounts w'.dues ∧ weigh w'.dues < weigh w.dues := by
  have ht : t ∈ w.dues := mem_dues.mpr (.inr (.inr ⟨_, List.mem_of_getElem? hi,
    List.mem_cons_self⟩))
  obtain ⟨M, hM⟩ := Multiset.exists_cons_of_mem ht
  obtain ⟨w', new, own, hexec, hdone⟩ := exec (h.congr hM)
  have hdues : ({ w' with calls := w'.calls.set i (new ++ ts) } : World).dues = own + M := by
    have hcalls := dues_calls (w := w') (by rw [hdone.calls]; exact hi) (new ++ ts)
    rw [← Multiset.coe_add, ← add_assoc, hdone.dues, hM, ← Multiset.cons_coe,
      ← Multiset.singleton_add, ← Multiset.singleton_add,
      ← add_assoc] at hcalls
    have hcalls := add_right_cancel hcalls
    rw [add_comm, add_assoc] at hcalls
    rw [add_left_cancel hcalls, add_comm]
  refine ⟨{ w' with calls := w'.calls.set i (new ++ ts) }, ?_, ?_, ?_⟩
  · simp only [World.perform, hi, hexec, Option.bind_eq_bind, Option.bind_some, Option.pure_def]
  · rw [hdues]
    exact ⟨hdone.accounts.counted, hdone.accounts.absent, hdone.accounts.this⟩
  · rw [hdues, hM, weigh_add, weigh_cons]
    exact Nat.add_lt_add_right hdone.lighter _

theorem perform (h : w.Accounts w.dues) {a : Act} (hp : w.Permitted a) :
    ∃ w', w.perform a = some w' ∧ w'.Accounts w'.dues := by
  cases a with
  | op o => exact h.performOp hp
  | run i =>
    obtain ⟨t, ts, hi⟩ := hp
    obtain ⟨w', hw', haccounts, -⟩ := h.runTask hi
    exact ⟨w', hw', haccounts⟩

theorem initial : empty.Accounts empty.dues :=
  ⟨fun b c hb => absurd hb (by simp [block, empty]), fun _ _ _ => rfl,
    fun b o t ho => absurd ho (by simp [object, block, empty])⟩

theorem run {as : List Act} (h : Run Step empty as w) : w.Accounts w.dues :=
  h.invariant (I := fun w => w.Accounts w.dues) initial fun w a w' hw hstep => by
    obtain ⟨w'', hw'', haccounts⟩ := hw.perform hstep.1
    cases hw''.symm.trans hstep.2
    exact haccounts

end Accounts

end World

end Gpcl.SharedPtr.Graph
