import Mathlib.Data.List.Pairwise
import Gpcl.Lib.Runs
import Gpcl.OffsetPtr.Basic

/-! # offset_ptr refines raw pointers

An `Image` is a memory with the offset_ptr objects that live in it. Beside it stands what
the objects are for: `Raw`, the same objects with a raw pointer each. An operation acts on
both, relocation of the whole image included. `Refines` says that each object stores the
offset of its raw pointer; every admissible operation keeps it and returns what the raw
operation returns, so whole runs agree. -/
namespace Gpcl.OffsetPtr
open Lib.Memory Lib.Runs

/-- An `offset_ptr<T>` at an address. -/
structure Obj where
  addr : Nat
  type : Pointee
deriving DecidableEq, Repr

namespace Obj

def region (o : Obj) : Region := ⟨o.addr, wordSize⟩

def Apart (o o' : Obj) : Prop := o.region.Disjoint o'.region

def shift (d : Int) (o : Obj) : Obj := { o with addr := (o.addr + d).toNat }

/-- The object lies in the address space. -/
def Placed (o : Obj) : Prop := 0 < o.addr ∧ o.addr + wordSize ≤ addressSpace

/-- The target is an address whose byte offset from the object is neither 0 nor the one reserved for
null. -/
def Reaches (o : Obj) (p : Int) : Prop :=
  0 < p ∧ p < addressSpace ∧ (o.type.checked = true → p - o.addr ≠ 0) ∧
    (p - o.addr) % (addressSpace : Int) ≠ invalidOffset

/-- A raw pointer that the object can hold. -/
def Holds (o : Obj) (p : Nat) : Prop := p = 0 ∨ o.Reaches p

end Obj

structure Image where
  mem : Mem
  objects : List Obj

structure Raw where
  objects : List Obj
  target : Nat → Nat

inductive Op
  | construct (o : Obj) (p : Nat)
  | copyConstruct (o other : Obj)
  | assign (o other : Obj)
  | get (o : Obj)
  | increment (o : Obj)
  | decrement (o : Obj)
  | addAssign (o : Obj) (diff : Int)
  | subAssign (o : Obj) (diff : Int)
  | postIncrement (o ret : Obj)
  | postDecrement (o ret : Obj)
  | plus (o ret : Obj) (diff : Int)
  | minus (o ret : Obj) (diff : Int)
  | difference (o other : Obj)
  | destroy (o : Obj)
  | write (a : Nat) (v : UInt8)
  | relocate (d : Int)

namespace Op

/-- The memory after an operation, and the number it returns. -/
def run (m : Mem) : Op → Option (Mem × Int)
  | .construct o p => some (OffsetPtr.construct m o.addr p, 0)
  | .copyConstruct o other => (OffsetPtr.copyConstruct o.type m o.addr other.addr).map (·, 0)
  | .assign o other => (OffsetPtr.assign o.type m o.addr other.addr).map (·, 0)
  | .get o => (OffsetPtr.get o.type m o.addr).map fun p => (m, (p : Int))
  | .increment o => (OffsetPtr.increment o.type m o.addr).map (·, 0)
  | .decrement o => (OffsetPtr.decrement o.type m o.addr).map (·, 0)
  | .addAssign o diff => (OffsetPtr.addAssign o.type m o.addr diff).map (·, 0)
  | .subAssign o diff => (OffsetPtr.subAssign o.type m o.addr diff).map (·, 0)
  | .postIncrement o ret => (OffsetPtr.postIncrement o.type m o.addr ret.addr).map (·, 0)
  | .postDecrement o ret => (OffsetPtr.postDecrement o.type m o.addr ret.addr).map (·, 0)
  | .plus o ret diff => (OffsetPtr.plus o.type m o.addr ret.addr diff).map (·, 0)
  | .minus o ret diff => (OffsetPtr.minus o.type m o.addr ret.addr diff).map (·, 0)
  | .difference o other => (OffsetPtr.difference o.type m o.addr other.addr).map fun k => (m, k)
  | .destroy _ => some (m, 0)
  | .write a v => some (Function.update m a v, 0)
  | .relocate d => some (OffsetPtr.relocate d m, 0)

/-- The objects alive after an operation. -/
def objectsAfter (objects : List Obj) : Op → List Obj
  | .construct o _ | .copyConstruct o _ => o :: objects
  | .postIncrement _ ret | .postDecrement _ ret | .plus _ ret _ | .minus _ ret _ => ret :: objects
  | .destroy o => objects.erase o
  | .relocate d => objects.map (Obj.shift d)
  | _ => objects

/-- `p + k`, on raw pointers. -/
def rawPlus (T : Pointee) (p : Nat) (k : Int) : Int := p + k * T.size

/-- The same operation on raw pointers. -/
def runRaw (t : Nat → Nat) : Op → (Nat → Nat) × Int
  | .construct o p => (Function.update t o.addr p, 0)
  | .copyConstruct o other | .assign o other => (Function.update t o.addr (t other.addr), 0)
  | .get o => (t, t o.addr)
  | .increment o => (Function.update t o.addr (rawPlus o.type (t o.addr) 1).toNat, 0)
  | .decrement o => (Function.update t o.addr (rawPlus o.type (t o.addr) (-1)).toNat, 0)
  | .addAssign o diff => (Function.update t o.addr (rawPlus o.type (t o.addr) diff).toNat, 0)
  | .subAssign o diff => (Function.update t o.addr (rawPlus o.type (t o.addr) (-diff)).toNat, 0)
  | .postIncrement o ret =>
    (Function.update (Function.update t ret.addr (t o.addr)) o.addr
      (rawPlus o.type (t o.addr) 1).toNat, 0)
  | .postDecrement o ret =>
    (Function.update (Function.update t ret.addr (t o.addr)) o.addr
      (rawPlus o.type (t o.addr) (-1)).toNat, 0)
  | .plus o ret diff => (Function.update t ret.addr (rawPlus o.type (t o.addr) diff).toNat, 0)
  | .minus o ret diff => (Function.update t ret.addr (rawPlus o.type (t o.addr) (-diff)).toNat, 0)
  | .difference o other => (t, rawDifference o.type (t o.addr) (t other.addr))
  | .destroy _ | .write _ _ => (t, 0)
  | .relocate d =>
    (fun x => if t ((x : Int) - d).toNat = 0 then 0 else (t ((x : Int) - d).toNat + d).toNat, 0)

end Op

namespace Raw

/-- A new object: in the address space and apart from the others. -/
def Fresh (r : Raw) (o : Obj) : Prop := o.Placed ∧ ∀ o' ∈ r.objects, o.Apart o'

/-- An object with a target, and pointer arithmetic on it that stays inside the address space
and ends at a target the object `ret` can hold. -/
def Moves (r : Raw) (o ret : Obj) (k : Int) : Prop :=
  o ∈ r.objects ∧ o.type.size ≠ 0 ∧ r.target o.addr ≠ 0 ∧
    ret.Reaches (Op.rawPlus o.type (r.target o.addr) k)

/-- The object a postfix or binary operator returns first holds the target of its operand. -/
def Returns (r : Raw) (o ret : Obj) : Prop :=
  r.Fresh ret ∧ ret.type = o.type ∧ ret.Reaches (r.target o.addr)

/-- The memory image stays inside the address space when it is moved by `d`, its targets
included. -/
def Movable (r : Raw) (d : Int) : Prop :=
  ∀ o ∈ r.objects, 0 < o.addr + d ∧ o.addr + d + wordSize ≤ addressSpace ∧
    (r.target o.addr ≠ 0 → 0 < r.target o.addr + d ∧ r.target o.addr + d < addressSpace)

end Raw

/-- The operation names live objects, and the targets it makes can be held. -/
def Op.Admissible (r : Raw) : Op → Prop
  | .construct o p => r.Fresh o ∧ o.Holds p
  | .copyConstruct o other =>
    r.Fresh o ∧ other ∈ r.objects ∧ o.type = other.type ∧ o.Holds (r.target other.addr)
  | .assign o other =>
    o ∈ r.objects ∧ other ∈ r.objects ∧ o.type = other.type ∧ o.Holds (r.target other.addr)
  | .get o | .destroy o => o ∈ r.objects
  | .increment o => r.Moves o o 1
  | .decrement o => r.Moves o o (-1)
  | .addAssign o diff => r.Moves o o diff
  | .subAssign o diff => r.Moves o o (-diff)
  | .postIncrement o ret => r.Returns o ret ∧ r.Moves o o 1
  | .postDecrement o ret => r.Returns o ret ∧ r.Moves o o (-1)
  | .plus o ret diff => r.Returns o ret ∧ r.Moves o ret diff
  | .minus o ret diff => r.Returns o ret ∧ r.Moves o ret (-diff)
  | .difference o other =>
    o ∈ r.objects ∧ other ∈ r.objects ∧ o.type = other.type ∧ o.type.size ≠ 0 ∧
    r.target o.addr ≠ 0 ∧ r.target other.addr ≠ 0
  | .write a _ => ∀ o ∈ r.objects, ¬ o.region.Contains a
  | .relocate d => r.Movable d

/-- A step of the program on offset_ptr objects, with what it returns. -/
def Step (w : Image) (a : Op × Int) (w' : Image) : Prop :=
  a.1.run w.mem = some (w'.mem, a.2) ∧ w'.objects = a.1.objectsAfter w.objects

/-- The same step on raw pointers. -/
def RawStep (r : Raw) (a : Op × Int) (r' : Raw) : Prop :=
  a.1.Admissible r ∧ a.1.runRaw r.target = (r'.target, a.2) ∧
    r'.objects = a.1.objectsAfter r.objects

/-- Each object stores the offset of its raw pointer. -/
structure Refines (w : Image) (r : Raw) : Prop where
  objects : w.objects = r.objects
  placed : ∀ o ∈ r.objects, o.Placed
  apart : r.objects.Pairwise Obj.Apart
  stored : ∀ o ∈ r.objects, loadWord w.mem o.addr = encode o.addr (r.target o.addr)
  holds : ∀ o ∈ r.objects, o.Holds (r.target o.addr)

/-! ## Offsets -/

theorem encode_lt (a p : Nat) : encode a p < addressSpace := by
  unfold encode offsetTo invalidOffset addressSpace
  split <;> omega

theorem encode_ne_invalid {o : Obj} {p : Nat} (ho : o.Placed) (h : o.Reaches p) :
    encode o.addr p ≠ invalidOffset := by
  obtain ⟨hpos, hlt, -, hne⟩ := h
  have h8 := ho.2
  rw [encode, if_pos (by omega)]
  unfold offsetTo addressSpace wordSize at *
  omega

/-- `get` reads back the pointer an offset stands for. -/
theorem get_eq {o : Obj} {m : Mem} {p : Nat} (ho : o.Placed) (hp : o.Holds p)
    (h : loadWord m o.addr = encode o.addr p) : get o.type m o.addr = some p := by
  obtain ⟨h0, h8⟩ := ho
  unfold get
  rw [h]
  rcases hp with rfl | hp
  · simp [encode, guard, invalidOffset]
  · have hinv := encode_ne_invalid ⟨h0, h8⟩ hp
    obtain ⟨hpos, hlt, hne, -⟩ := hp
    have hcode : encode o.addr p = offsetTo o.addr p := if_pos (by omega)
    have hg : o.type.checked = true → encode o.addr p ≠ 0 := by
      intro hc
      have hne := hne hc
      rw [hcode]
      unfold offsetTo addressSpace wordSize at *
      omega
    have hback : (o.addr + offsetTo o.addr p) % addressSpace = p := by
      unfold offsetTo addressSpace wordSize at *
      omega
    rw [hcode] at hg hinv ⊢
    simp [guard, if_pos hg, hinv, hback]

section
variable {a p δ : Nat} {z : Int}

/-- An offset moved by `z` bytes is the offset of the target moved by `z` bytes. -/
theorem encode_add (ha : a ≤ addressSpace) (hp : p ≠ 0) (h0 : 0 < p + z)
    (hδ : (δ : Int) % (addressSpace : Int) = z % (addressSpace : Int)) :
    (encode a p + δ) % addressSpace = encode a (p + z).toNat := by
  rw [encode, if_pos hp, encode, if_pos (by omega)]
  unfold offsetTo addressSpace at *
  omega

theorem encode_sub (ha : a ≤ addressSpace) (hp : p ≠ 0) (h0 : 0 < p + -z)
    (hδ : (δ : Int) % (addressSpace : Int) = z % (addressSpace : Int)) :
    (encode a p + (addressSpace - δ % addressSpace)) % addressSpace = encode a (p + -z).toNat := by
  rw [encode, if_pos hp, encode, if_pos (by omega)]
  unfold offsetTo addressSpace at *
  omega

end

/-! ## Relocation -/

theorem loadWord_relocate {m : Mem} {a : Nat} {d : Int} (h : 0 ≤ a + d) :
    loadWord (relocate d m) (a + d).toNat = loadWord m a := by
  have hb : ∀ i : Nat, relocate d m ((a + d).toNat + i) = m (a + i) := by
    intro i
    unfold relocate
    congr 1
    omega
  have h0 : relocate d m (a + d).toNat = m a := hb 0
  simp only [loadWord, hb, h0]

theorem encode_shift {a p : Nat} {d : Int} (ha : 0 ≤ a + d) (hle : a ≤ addressSpace)
    (hle' : a + d ≤ addressSpace) (hp : p ≠ 0)
    (h0 : 0 < p + d) : encode (a + d).toNat (p + d).toNat = encode a p := by
  rw [encode, if_pos (by omega), encode, if_pos hp]
  unfold offsetTo addressSpace at *
  omega

/-! ## One operation -/

instance : Std.Symm Obj.Apart := ⟨fun _ _ => Region.Disjoint.symm⟩

theorem Obj.Apart.addr_ne {o o' : Obj} (h : o.Apart o') : o'.addr ≠ o.addr := by
  simp only [Apart, Region.Disjoint, Region.stop, region, wordSize] at h
  omega

theorem loadWord_apart {m : Mem} {o o' : Obj} {v : Nat} (h : o.Apart o') :
    loadWord (storeWord m o.addr v) o'.addr = loadWord m o'.addr := by
  refine loadWord_storeWord_apart ?_
  simp only [Obj.Apart, Region.Disjoint, Region.stop, Obj.region] at h
  omega

section
variable {w : Image} {r : Raw} {o other : Obj} {p : Nat}

theorem Refines.get_eq (h : Refines w r) (ho : o ∈ r.objects) :
    get o.type w.mem o.addr = some (r.target o.addr) :=
  OffsetPtr.get_eq (h.placed o ho) (h.holds o ho) (h.stored o ho)

/-- Objects other than `o` notice nothing of a new offset in `o`. -/
theorem Refines.frame (h : Refines w r) {o' : Obj} (ho : o' ∈ r.objects) (ha : o.Apart o')
    (v p : Nat) :
    loadWord (storeWord w.mem o.addr v) o'.addr =
      encode o'.addr (Function.update r.target o.addr p o'.addr) ∧
      o'.Holds (Function.update r.target o.addr p o'.addr) := by
  rw [loadWord_apart ha, Function.update_of_ne ha.addr_ne]
  exact ⟨h.stored o' ho, h.holds o' ho⟩

/-- A live object gets a new target. -/
theorem Refines.store (h : Refines w r) (ho : o ∈ r.objects) (hp : o.Holds p) :
    Refines ⟨storeWord w.mem o.addr (encode o.addr p), w.objects⟩
      ⟨r.objects, Function.update r.target o.addr p⟩ := by
  have hall : ∀ o' ∈ r.objects,
      loadWord (storeWord w.mem o.addr (encode o.addr p)) o'.addr =
        encode o'.addr (Function.update r.target o.addr p o'.addr) ∧
        o'.Holds (Function.update r.target o.addr p o'.addr) := by
    intro o' ho'
    by_cases he : o = o'
    · subst he
      rw [Function.update_self, loadWord_storeWord _ _ (encode_lt _ _)]
      exact ⟨rfl, hp⟩
    · exact h.frame ho' (h.apart.forall ho ho' he) _ _
  exact ⟨h.objects, h.placed, h.apart, fun o' ho' => (hall o' ho').1, fun o' ho' => (hall o' ho').2⟩

/-- A new object with a target. -/
theorem Refines.create (h : Refines w r) (hf : r.Fresh o) (hp : o.Holds p) :
    Refines ⟨storeWord w.mem o.addr (encode o.addr p), o :: w.objects⟩
      ⟨o :: r.objects, Function.update r.target o.addr p⟩ := by
  have hall : ∀ o' ∈ o :: r.objects,
      loadWord (storeWord w.mem o.addr (encode o.addr p)) o'.addr =
        encode o'.addr (Function.update r.target o.addr p o'.addr) ∧
        o'.Holds (Function.update r.target o.addr p o'.addr) := by
    intro o' ho'
    rcases List.mem_cons.mp ho' with rfl | ho'
    · rw [Function.update_self, loadWord_storeWord _ _ (encode_lt _ _)]
      exact ⟨rfl, hp⟩
    · exact h.frame ho' (hf.2 o' ho') _ _
  refine ⟨congrArg (o :: ·) h.objects, ?_, List.pairwise_cons.mpr ⟨hf.2, h.apart⟩,
    fun o' ho' => (hall o' ho').1,
    fun o' ho' => (hall o' ho').2⟩
  intro o' ho'
  rcases List.mem_cons.mp ho' with rfl | ho'
  · exact hf.1
  · exact h.placed o' ho'

theorem Refines.requireTarget (h : Refines w r) (ho : o ∈ r.objects) (hs : o.type.size ≠ 0)
    (ht : r.target o.addr ≠ 0) : requireTarget o.type w.mem o.addr = some () := by
  simp [OffsetPtr.requireTarget, h.get_eq ho, hs, ht, guard]

/-- Adding to the offset of an object moves its target. -/
theorem Refines.addOffset (h : Refines w r) {k : Int} {δ : Nat} (hm : r.Moves o o k)
    (hδ : (δ : Int) % (addressSpace : Int) = k * o.type.size % (addressSpace : Int)) :
    Refines ⟨addOffset w.mem o.addr δ, w.objects⟩
      ⟨r.objects, Function.update r.target o.addr
        (Op.rawPlus o.type (r.target o.addr) k).toNat⟩ := by
  obtain ⟨ho, -, ht, hr⟩ := hm
  have hpos := hr.1
  have hle := (h.placed o ho).2
  have hrw : OffsetPtr.addOffset w.mem o.addr δ =
      storeWord w.mem o.addr (encode o.addr (Op.rawPlus o.type (r.target o.addr) k).toNat) := by
    rw [OffsetPtr.addOffset, h.stored o ho, encode_add (by omega) ht hpos hδ]
    rfl
  rw [hrw]
  refine h.store ho (.inr ?_)
  rwa [Int.toNat_of_nonneg (Int.le_of_lt hpos)]

theorem Refines.subOffset (h : Refines w r) {k : Int} {δ : Nat} (hm : r.Moves o o (-k))
    (hδ : (δ : Int) % (addressSpace : Int) = k * o.type.size % (addressSpace : Int)) :
    Refines ⟨subOffset w.mem o.addr δ, w.objects⟩
      ⟨r.objects, Function.update r.target o.addr
        (Op.rawPlus o.type (r.target o.addr) (-k)).toNat⟩ := by
  obtain ⟨ho, -, ht, hr⟩ := hm
  have hpos := hr.1
  have hle := (h.placed o ho).2
  have hneg : Op.rawPlus o.type (r.target o.addr) (-k) = r.target o.addr + -(k * o.type.size) := by
    rw [Op.rawPlus, Int.neg_mul]
  have hrw : OffsetPtr.subOffset w.mem o.addr δ =
      storeWord w.mem o.addr (encode o.addr (Op.rawPlus o.type (r.target o.addr) (-k)).toNat) := by
    rw [hneg] at hpos ⊢
    rw [OffsetPtr.subOffset, h.stored o ho, encode_sub (by omega) ht hpos hδ]
  rw [hrw]
  refine h.store ho (.inr ?_)
  rwa [Int.toNat_of_nonneg (Int.le_of_lt hpos)]

theorem Refines.relocate (h : Refines w r) {d : Int} (hd : r.Movable d) :
    Refines ⟨relocate d w.mem, w.objects.map (Obj.shift d)⟩
      ⟨r.objects.map (Obj.shift d), ((Op.relocate d).runRaw r.target).1⟩ := by
  have hback : ∀ o ∈ r.objects, (((o.addr + d).toNat : Int) - d).toNat = o.addr := by
    intro o ho
    have := hd o ho
    omega
  refine ⟨congrArg _ h.objects, ?_, ?_, ?_, ?_⟩
  · intro o' ho'
    obtain ⟨o, ho, rfl⟩ := List.mem_map.mp ho'
    obtain ⟨h0, h8, -⟩ := hd o ho
    constructor
    · simp only [Obj.shift]; omega
    · simp only [Obj.shift]; omega
  · refine List.pairwise_map.mpr (h.apart.imp_of_mem ?_)
    intro o o' ho ho' ha
    have hpos := (hd o ho).1
    have hpos' := (hd o' ho').1
    simp only [Obj.Apart, Region.Disjoint, Region.stop, Obj.region, Obj.shift] at ha ⊢
    omega
  · intro o' ho'
    obtain ⟨o, ho, rfl⟩ := List.mem_map.mp ho'
    obtain ⟨h0, h8, ht⟩ := hd o ho
    have hle := (h.placed o ho).2
    simp only [Obj.shift, Op.runRaw, hback o ho]
    rw [loadWord_relocate (Int.le_of_lt h0), h.stored o ho]
    by_cases hz : r.target o.addr = 0
    · rw [hz, if_pos rfl]
      rfl
    · rw [if_neg hz]
      exact (encode_shift (Int.le_of_lt h0) (by omega) (by omega) hz (ht hz).1).symm
  · intro o' ho'
    obtain ⟨o, ho, rfl⟩ := List.mem_map.mp ho'
    obtain ⟨h0, h8, ht⟩ := hd o ho
    simp only [Obj.shift, Op.runRaw, hback o ho]
    by_cases hz : r.target o.addr = 0
    · rw [if_pos hz]
      exact .inl rfl
    · rw [if_neg hz]
      have hr := (h.holds o ho).resolve_left hz
      obtain ⟨hpos, hlt, hne, hinv⟩ := hr
      have hs := ht hz
      have hdiff :
          (((r.target o.addr + d).toNat : Int) - ((o.addr + d).toNat : Int)) =
            r.target o.addr - o.addr := by omega
      refine .inr ⟨by omega, by omega, ?_, ?_⟩
      · rw [hdiff]; exact hne
      · rw [hdiff]; exact hinv

/-- The returned object of a postfix or binary operator, with the operand still as it was. -/
theorem Refines.returned {ret : Obj} (h : Refines w r) (ho : o ∈ r.objects) (hr : r.Returns o ret) :
    ∃ m, copyConstruct o.type w.mem ret.addr o.addr = some m ∧
      Refines ⟨m, ret :: w.objects⟩
        ⟨ret :: r.objects, Function.update r.target ret.addr (r.target o.addr)⟩ := by
  obtain ⟨hf, -, hreach⟩ := hr
  refine ⟨_, ?_, h.create hf (.inr hreach)⟩
  simp [OffsetPtr.copyConstruct, h.get_eq ho, construct]

/-- A move of the operand after its copy was made. -/
theorem Raw.Moves.of_returned {ret : Obj} {k : Int} (hf : r.Fresh ret) (hm : r.Moves o o k) :
    Raw.Moves ⟨ret :: r.objects, Function.update r.target ret.addr p⟩ o o k ∧
      Function.update r.target ret.addr p o.addr = r.target o.addr := by
  obtain ⟨ho, hs, ht, hr⟩ := hm
  have hkeep : Function.update r.target ret.addr p o.addr = r.target o.addr :=
    Function.update_of_ne (hf.2 o ho).addr_ne _ _
  refine ⟨⟨List.mem_cons_of_mem _ ho, hs, ?_, ?_⟩, hkeep⟩
  · dsimp only; rw [hkeep]; exact ht
  · dsimp only; rw [hkeep]; exact hr

/-- A move of the copy. -/
theorem Raw.Moves.of_copy {ret : Obj} {k : Int} (hty : ret.type = o.type) (hm : r.Moves o ret k) :
    Raw.Moves ⟨ret :: r.objects,
      Function.update r.target ret.addr (r.target o.addr)⟩ ret ret k := by
  obtain ⟨ho, hs, ht, hr⟩ := hm
  refine ⟨List.mem_cons_self, hty ▸ hs, ?_, ?_⟩
  · simpa using ht
  · simpa [hty] using hr

/-- An admissible operation returns what the raw operation returns and keeps the offsets right. -/
theorem Refines.step (h : Refines w r) {op : Op} (ha : op.Admissible r) :
    ∃ m, op.run w.mem = some (m, (op.runRaw r.target).2) ∧
      Refines ⟨m, op.objectsAfter w.objects⟩
        ⟨op.objectsAfter r.objects, (op.runRaw r.target).1⟩ := by
  cases op with
  | construct o p => exact ⟨_, rfl, h.create ha.1 ha.2⟩
  | copyConstruct o other =>
    obtain ⟨hf, ho, hty, hp⟩ := ha
    refine ⟨_, ?_, h.create hf hp⟩
    simp [Op.run, OffsetPtr.copyConstruct, hty, h.get_eq ho, construct, Op.runRaw]
  | assign o other =>
    obtain ⟨ho, ho', hty, hp⟩ := ha
    refine ⟨_, ?_, h.store ho hp⟩
    simp [Op.run, OffsetPtr.assign, hty, h.get_eq ho', Op.runRaw]
  | get o =>
    refine ⟨w.mem, ?_, h⟩
    simp [Op.run, h.get_eq ha, Op.runRaw]
  | increment o =>
    refine ⟨_, ?_, h.addOffset ha (δ := o.type.size) (by rw [Int.one_mul])⟩
    simp [Op.run, OffsetPtr.increment, h.requireTarget ha.1 ha.2.1 ha.2.2.1, Op.runRaw]
  | decrement o =>
    refine ⟨_, ?_, h.subOffset ha (δ := o.type.size) (by rw [Int.one_mul])⟩
    simp [Op.run, OffsetPtr.decrement, h.requireTarget ha.1 ha.2.1 ha.2.2.1, Op.runRaw]
  | addAssign o diff =>
    refine ⟨_, ?_, h.addOffset ha (diffToOffset_mod _ _)⟩
    simp [Op.run, OffsetPtr.addAssign, h.requireTarget ha.1 ha.2.1 ha.2.2.1, Op.runRaw]
  | subAssign o diff =>
    refine ⟨_, ?_, h.subOffset ha (diffToOffset_mod _ _)⟩
    simp [Op.run, OffsetPtr.subAssign, h.requireTarget ha.1 ha.2.1 ha.2.2.1, Op.runRaw]
  | postIncrement o ret =>
    obtain ⟨hr, hm⟩ := ha
    obtain ⟨m, hcopy, h₁⟩ := h.returned hm.1 hr
    obtain ⟨hm₁, hkeep⟩ := Raw.Moves.of_returned (p := r.target o.addr) hr.1 hm
    have h₂ := h₁.addOffset hm₁ (δ := o.type.size) (by rw [Int.one_mul])
    have hreq := h₁.requireTarget hm₁.1 hm₁.2.1 hm₁.2.2.1
    dsimp only at h₂ hreq
    rw [hkeep] at h₂
    refine ⟨_, ?_, h₂⟩
    simp [Op.run, OffsetPtr.postIncrement, h.requireTarget hm.1 hm.2.1 hm.2.2.1, hcopy,
      OffsetPtr.increment, hreq, Op.runRaw]
  | postDecrement o ret =>
    obtain ⟨hr, hm⟩ := ha
    obtain ⟨m, hcopy, h₁⟩ := h.returned hm.1 hr
    obtain ⟨hm₁, hkeep⟩ := Raw.Moves.of_returned (p := r.target o.addr) hr.1 hm
    have h₂ := h₁.subOffset hm₁ (δ := o.type.size) (by rw [Int.one_mul])
    have hreq := h₁.requireTarget hm₁.1 hm₁.2.1 hm₁.2.2.1
    dsimp only at h₂ hreq
    rw [hkeep] at h₂
    refine ⟨_, ?_, h₂⟩
    simp [Op.run, OffsetPtr.postDecrement, h.requireTarget hm.1 hm.2.1 hm.2.2.1, hcopy,
      OffsetPtr.decrement, hreq, Op.runRaw]
  | plus o ret diff =>
    obtain ⟨hr, hm⟩ := ha
    obtain ⟨m, hcopy, h₁⟩ := h.returned hm.1 hr
    have hm₁ := Raw.Moves.of_copy hr.2.1 hm
    have h₂ := h₁.addOffset hm₁ (diffToOffset_mod _ diff)
    have hreq := h₁.requireTarget hm₁.1 hm₁.2.1 hm₁.2.2.1
    simp only [Function.update_self, Function.update_idem, hr.2.1] at h₂ hreq
    refine ⟨_, ?_, h₂⟩
    simp [Op.run, OffsetPtr.plus, h.requireTarget hm.1 hm.2.1 hm.2.2.1, hcopy, OffsetPtr.addAssign,
      hreq, Op.runRaw]
  | minus o ret diff =>
    obtain ⟨hr, hm⟩ := ha
    obtain ⟨m, hcopy, h₁⟩ := h.returned hm.1 hr
    have hm₁ := Raw.Moves.of_copy hr.2.1 hm
    have h₂ := h₁.subOffset hm₁ (diffToOffset_mod _ diff)
    have hreq := h₁.requireTarget hm₁.1 hm₁.2.1 hm₁.2.2.1
    simp only [Function.update_self, Function.update_idem, hr.2.1] at h₂ hreq
    refine ⟨_, ?_, h₂⟩
    simp [Op.run, OffsetPtr.minus, h.requireTarget hm.1 hm.2.1 hm.2.2.1, hcopy, OffsetPtr.subAssign,
      hreq, Op.runRaw]
  | difference o other =>
    obtain ⟨ho, ho', hty, hs, ht, ht'⟩ := ha
    have hget := h.get_eq ho'
    have hreq := h.requireTarget ho' (hty ▸ hs) ht'
    rw [← hty] at hget hreq
    refine ⟨w.mem, ?_, h⟩
    simp [Op.run, OffsetPtr.difference, h.requireTarget ho hs ht, hreq, h.get_eq ho, hget,
      Op.runRaw]
  | destroy o =>
    have hmem : ∀ o' ∈ r.objects.erase o, o' ∈ r.objects := fun o' ho' => List.mem_of_mem_erase ho'
    refine ⟨w.mem, rfl, congrArg (List.erase · o) h.objects, ?_, ?_, ?_, ?_⟩
    · intro o' ho'; exact h.placed o' (hmem o' ho')
    · exact h.apart.sublist List.erase_sublist
    · intro o' ho'; exact h.stored o' (hmem o' ho')
    · intro o' ho'; exact h.holds o' (hmem o' ho')
  | write a v =>
    refine ⟨_, rfl, h.objects, h.placed, h.apart, ?_, h.holds⟩
    intro o ho
    refine Eq.trans (loadWord_congr ?_) (h.stored o ho)
    intro x hx hx'
    refine Function.update_of_ne ?_ _ _
    intro he
    exact ha o ho (he ▸ ⟨hx, hx'⟩)
  | relocate d => exact ⟨_, rfl, h.relocate ha⟩

/-! ## Whole runs -/

/-- A run on raw pointers is a run on offset_ptr objects, step for step and with the same
results. -/
theorem refines_run {m : Mem} {acts : List (Op × Int)} (h : Run RawStep ⟨[], fun _ => 0⟩ acts r) :
    ∃ w, Run Step ⟨m, []⟩ acts w ∧ Refines w r := by
  induction h with
  | nil => exact ⟨⟨m, []⟩, .nil, ⟨rfl, by simp, List.Pairwise.nil, by simp, by simp⟩⟩
  | @snoc as t u a _ hs ih =>
    obtain ⟨w, hrun, hw⟩ := ih
    obtain ⟨ha, ht, ho⟩ := hs
    obtain ⟨m', hop, hr⟩ := hw.step ha
    rw [ht] at hop hr
    rw [← ho] at hr
    exact ⟨_, hrun.snoc ⟨hop, rfl⟩, hr⟩

/-- A copy and an assignment at any address give the target of the object they copy. -/
theorem Refines.copy_get (h : Refines w r) (ho : o ∈ r.objects) (hp : other.Placed)
    (hh : other.Holds (r.target o.addr)) :
    ∃ m, copyConstruct o.type w.mem other.addr o.addr = some m ∧
    assign o.type w.mem other.addr o.addr = some m ∧
      get other.type m other.addr = get o.type w.mem o.addr := by
  refine ⟨storeWord w.mem other.addr (encode other.addr (r.target o.addr)), ?_, ?_, ?_⟩
  · simp [OffsetPtr.copyConstruct, h.get_eq ho, construct]
  · simp [OffsetPtr.assign, h.get_eq ho]
  · rw [h.get_eq ho]
    exact OffsetPtr.get_eq hp hh (loadWord_storeWord _ _ (encode_lt _ _))

/-- **Programs on offset_ptr objects and on raw pointers agree.** Whatever admissible operations are
run, relocations of the whole image included, both return the same; then every `get` is the raw
pointer, a relocation moves every `get` by its displacement and keeps null, and copies keep the
target. -/
theorem agrees_with_raw_pointers {m : Mem} {acts : List (Op × Int)}
    (h : Run RawStep ⟨[], fun _ => 0⟩ acts r) :
    ∃ w, Run Step ⟨m, []⟩ acts w ∧ w.objects = r.objects ∧
      (∀ o ∈ w.objects, get o.type w.mem o.addr = some (r.target o.addr)) ∧
      (∀ d, r.Movable d → ∀ o ∈ w.objects, ∃ p, get o.type w.mem o.addr = some p ∧
        get o.type (relocate d w.mem) (o.addr + d).toNat =
          some (if p = 0 then 0 else (p + d).toNat)) ∧
      ∀ o ∈ w.objects, ∀ other : Obj, other.Placed → other.Holds (r.target o.addr) →
        ∃ m', copyConstruct o.type w.mem other.addr o.addr = some m' ∧
        assign o.type w.mem other.addr o.addr = some m' ∧
          get other.type m' other.addr = get o.type w.mem o.addr := by
  obtain ⟨w, hrun, hw⟩ := refines_run (m := m) h
  refine ⟨w, hrun, hw.objects, ?_, ?_, ?_⟩
  · intro o ho
    exact hw.get_eq (hw.objects ▸ ho)
  · intro d hd o ho
    have ho : o ∈ r.objects := hw.objects ▸ ho
    refine ⟨_, hw.get_eq ho, ?_⟩
    have hget := (hw.relocate hd).get_eq (List.mem_map_of_mem ho)
    have hback : (((o.addr + d).toNat : Int) - d).toNat = o.addr := by
      have := hd o ho
      omega
    simpa only [Obj.shift, Op.runRaw, hback] using hget
  · intro o ho other hp hh
    exact hw.copy_get (hw.objects ▸ ho) hp hh

/-- A pointer to a four-byte element is moved along by 16 bytes and then incremented. -/
theorem agrees_after_relocation : ∃ w, Run Step ⟨fun _ => 0, []⟩
    [(.construct ⟨64, 4, true⟩ 96, 0), (.relocate 16, 0), (.increment ⟨80, 4, true⟩, 0)] w ∧
    get ⟨4, true⟩ w.mem 80 = some 116 := by
  have hreach : ∀ (a p : Nat) (ha : a < 1000) (hp : p < 1000) (h0 : 0 < p) (hne : p ≠ a),
      Obj.Reaches ⟨a, 4, true⟩ p := by
    intro a p ha hp h0 hne
    refine ⟨by omega, by unfold addressSpace; omega, fun _ => by simp only; omega, ?_⟩
    simp only [addressSpace, invalidOffset]
    omega
  have h₁ : RawStep ⟨[], fun _ => 0⟩ (.construct ⟨64, 4, true⟩ 96, 0)
      ⟨[⟨64, 4, true⟩], Function.update (fun _ => 0) 64 96⟩ := by
    refine ⟨⟨⟨⟨by decide, by decide⟩, by simp⟩, .inr ?_⟩, rfl, rfl⟩
    exact hreach 64 96 (by decide) (by decide) (by decide) (by decide)
  have h₂ : RawStep ⟨[⟨64, 4, true⟩], Function.update (fun _ => 0) 64 96⟩ (.relocate 16, 0)
      ⟨[⟨80, 4, true⟩], ((Op.relocate 16).runRaw (Function.update (fun _ => 0) 64 96)).1⟩ := by
    refine ⟨fun o ho => ?_, rfl, rfl⟩
    obtain rfl := List.mem_singleton.mp ho
    exact ⟨by decide, by decide, fun _ => ⟨by decide, by decide⟩⟩
  have h₃ :
      RawStep ⟨[⟨80, 4, true⟩], ((Op.relocate 16).runRaw (Function.update (fun _ => 0) 64 96)).1⟩
      (.increment ⟨80, 4, true⟩, 0) ⟨[⟨80, 4, true⟩], ((Op.increment ⟨80, 4, true⟩).runRaw
        ((Op.relocate 16).runRaw (Function.update (fun _ => 0) 64 96)).1).1⟩ :=
    ⟨⟨List.mem_singleton_self _, by decide, by decide,
      hreach 80 116 (by decide) (by decide) (by decide) (by decide)⟩, rfl, rfl⟩
  obtain ⟨w, hrun, hobj, hget, -⟩ :=
    agrees_with_raw_pointers (m := fun _ => 0) (((Run.single h₁).snoc h₂).snoc h₃)
  exact ⟨w, hrun, hget ⟨80, 4, true⟩ (by rw [hobj]; exact List.mem_singleton_self _)⟩

end

end Gpcl.OffsetPtr
