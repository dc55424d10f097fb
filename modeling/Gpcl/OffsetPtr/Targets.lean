import Gpcl.OffsetPtr.Refine

/-! # The targets of an offset_ptr

Two distances from the object do not stand for a target: the largest one is null, and where `get`
checks for memory that was never written, 0 is that. All other targets are read back. -/
namespace Gpcl.OffsetPtr
open Lib.Memory

/-- `get` reads back exactly the targets that the object reaches. -/
theorem get_encode_iff {o : Obj} {m : Mem} {p : Nat} (ho : o.Placed) (h0 : 0 < p)
    (hlt : p < addressSpace)
    (h : loadWord m o.addr = encode o.addr p) : get o.type m o.addr = some p ↔ o.Reaches p := by
  constructor
  · intro hget
    obtain ⟨hpos, h8⟩ := ho
    have hcode : encode o.addr p = offsetTo o.addr p := if_pos (by omega)
    unfold get at hget
    rw [h, hcode] at hget
    obtain ⟨_, hguard, hvalue⟩ := Option.bind_eq_some_iff.mp hget
    have hoffset : o.type.checked = true → offsetTo o.addr p ≠ 0 := by
      by_contra hno
      rw [guard, if_neg hno] at hguard
      cases hguard
    have hinv : offsetTo o.addr p ≠ invalidOffset := by
      intro he
      rw [he, if_neg (not_not.mpr rfl)] at hvalue
      obtain rfl := Option.some.inj hvalue
      omega
    refine ⟨by omega, by omega, fun hc he => hoffset hc ?_, fun he => hinv ?_⟩
    · unfold offsetTo addressSpace wordSize at *
      omega
    · unfold offsetTo addressSpace wordSize at *
      omega
  · intro hr
    exact get_eq ho (.inr hr) h

/-- Nothing but the target or null is read back. -/
theorem get_encode_some {o : Obj} {m : Mem} {p q : Nat} (ho : o.Placed) (hlt : p < addressSpace)
    (h : loadWord m o.addr = encode o.addr p) (hget : get o.type m o.addr = some q) :
    q = p ∨ q = 0 := by
  obtain ⟨h0, h8⟩ := ho
  unfold get at hget
  rw [h] at hget
  obtain ⟨_, _, hvalue⟩ := Option.bind_eq_some_iff.mp hget
  split at hvalue
  · next hinv =>
    obtain rfl := Option.some.inj hvalue
    refine .inl ?_
    have hp : p ≠ 0 := fun he => hinv (by rw [encode, if_neg (not_not.mpr he)])
    rw [encode, if_pos hp]
    unfold offsetTo addressSpace wordSize at *
    omega
  · exact .inr (Option.some.inj hvalue).symm

/-- An object denotes what it was constructed from, or what an object denotes that it was copied or
assigned from, exactly when the target is at a distance that stands for itself. -/
theorem denotes_target_iff {o other : Obj} {m : Mem} {p : Nat} (ho : o.Placed) (ho' : other.Placed)
    (hty : o.type = other.type) (h0 : 0 < p) (hlt : p < addressSpace) :
    (get o.type (construct m o.addr p) o.addr = some p ↔ o.Reaches p) ∧
    ((∃ m', copyConstruct o.type (construct m other.addr p) o.addr other.addr = some m' ∧
      get o.type m' o.addr = some p) ↔
      other.Reaches p ∧ o.Reaches p) ∧
    ((∃ m', assign o.type (construct m other.addr p) o.addr other.addr = some m' ∧
      get o.type m' o.addr = some p) ↔
      other.Reaches p ∧ o.Reaches p) := by
  have hstored : ∀ (m : Mem) (a q : Nat), loadWord (storeWord m a (encode a q)) a = encode a q :=
    fun m a q => loadWord_storeWord m a (encode_lt a q)
  have hother : get o.type (construct m other.addr p) other.addr = some p ↔ other.Reaches p := by
    rw [hty]
    exact get_encode_iff ho' h0 hlt (hstored _ _ _)
  have hself : ∀ m : Mem, get o.type (storeWord m o.addr (encode o.addr p)) o.addr = some p ↔
      o.Reaches p :=
    fun m => get_encode_iff ho h0 hlt (hstored _ _ _)
  -- the constructor and the assignment are the same on the memory
  have hcopy :
      (∃ m', copyConstruct o.type (construct m other.addr p) o.addr other.addr = some m' ∧
        get o.type m' o.addr = some p) ↔
      other.Reaches p ∧ o.Reaches p := by
    constructor
    · rintro ⟨m', hm', hp⟩
      obtain ⟨q, hq, hm'⟩ := Option.bind_eq_some_iff.mp hm'
      obtain rfl := Option.some.inj hm'
      have hqp : q = p := by
        rcases get_encode_some ho' hlt (hstored m _ _) (hty ▸ hq) with hqp | rfl
        · exact hqp
        · rcases get_encode_some ho (by decide) (hstored _ _ _) hp with rfl | rfl <;> omega
      subst hqp
      exact ⟨hother.mp hq, (hself _).mp hp⟩
    · rintro ⟨hr', hr⟩
      refine ⟨_, ?_, (hself (construct m other.addr p)).mpr hr⟩
      rw [copyConstruct, hother.mpr hr']
      rfl
  exact ⟨hself m, hcopy, hcopy⟩

/-- A pointer to an element in the middle of a buffer. -/
theorem denotes_target_apart : get ⟨4, true⟩ (construct (fun _ => 0) 64 96) 64 = some 96 ∧
    ∃ m, assign ⟨4, true⟩ (construct (fun _ => 0) 128 96) 64 128 = some m ∧
    get ⟨4, true⟩ m 64 = some 96 := by
  have hreach : Obj.Reaches ⟨64, 4, true⟩ (96 : Nat) :=
    ⟨by decide, by decide, fun _ => by decide, by decide⟩
  have hreach' : Obj.Reaches ⟨128, 4, true⟩ (96 : Nat) :=
    ⟨by decide, by decide, fun _ => by decide, by decide⟩
  have hplaced : Obj.Placed ⟨64, 4, true⟩ := ⟨by decide, by decide⟩
  have hplaced' : Obj.Placed ⟨128, 4, true⟩ := ⟨by decide, by decide⟩
  have h := denotes_target_iff (m := fun _ => 0) (p := 96) hplaced hplaced' rfl (by decide)
    (by decide)
  exact ⟨h.1.mpr hreach, h.2.2.mpr ⟨hreach', hreach⟩⟩

/-- A node that is linked to itself is taken for uninitialised, and a target at the distance that
stands for null is null. -/
theorem self_linked_stops : get ⟨4, true⟩ (construct (fun _ => 0) 64 64) 64 = none ∧
    get ⟨4, true⟩ (construct (fun _ => 0) 64 (64 + invalidOffset)) 64 = some 0 := by
  have hstored : ∀ q, loadWord (construct (fun _ => 0) 64 q) 64 = encode 64 q :=
    fun q => loadWord_storeWord _ _ (encode_lt 64 q)
  constructor
  · rw [get, hstored]
    rfl
  · rw [get, hstored]
    rfl

end Gpcl.OffsetPtr
