import Gpcl.Tlsf.Blocks

/-! # Allocating and freeing

What the operations do to the blocks and to the free lists together. None of them fails.
`tlsf_memalign` returns null exactly when there is no block for the size that it looks for. -/
namespace Gpcl.Tlsf
open Lib.Memory Lib.Bitmap

variable {pools : List Region} {c c' : Control} {hand hand' : List Nat} {q p s size gap align : Nat}
    {b n d : Header}

structure Sound (pools : List Region) (c : Control) (hand : List Nat) : Prop where
  laid : Laid pools c.headers
  indexed : Indexed c hand

theorem Sound.headers (h : Sound pools c hand) (hsame : c'.headers = c.headers)
    (hi : Indexed c' hand') : Sound pools c' hand' :=
  ⟨by rw [hsame]; exact h.laid, hi⟩

/-! ## The lists after an operation on headers -/

theorem Indexed.used (h : Indexed c [q]) (hn : c.headers (q + b.size + 8) = some n) :
    Indexed { c with headers := usedHeaders c.headers q b n } [] := by
  refine h.withHeaders fun x => ?_
  by_cases hx : x = q
  · simp [listedSize, usedHeaders, hx]
  · by_cases hxn : x = q + b.size + 8
    · rw [← hxn] at hn
      simp [listedSize, usedHeaders, ← hxn, hx, hn]
    · simp [listedSize, usedHeaders, hx, hxn]

theorem Indexed.freed (h : Indexed c []) (hb : c.headers q = some b) (hused : b.free = false)
    (hn : c.headers (q + b.size + 8) = some n) :
    Indexed { c with headers := freedHeaders c.headers q b n } [q] := by
  refine h.withHeaders fun x => ?_
  by_cases hx : x = q
  · simp [listedSize, hx, hb, hused]
  · by_cases hxn : x = q + b.size + 8
    · rw [← hxn] at hn
      simp [listedSize, freedHeaders, ← hxn, hx, hn]
    · simp [listedSize, freedHeaders, hx, hxn]

theorem Indexed.split (h : Indexed c [q]) (hn : c.headers (q + b.size + 8) = some n)
    (hnew : c.headers (q + s + 8) = none) (hhand : ∀ x, x ∈ hand ↔ x = q ∨ x = q + s + 8) :
    Indexed { c with headers := splitHeaders c.headers q s b n } hand := by
  refine h.withHeaders fun x => ?_
  by_cases hx : x = q
  · simp [listedSize, hx, hhand]
  · by_cases hxr : x = q + s + 8
    · simp [listedSize, hxr, hhand, hnew]
    · by_cases hxn : x = q + b.size + 8
      · rw [← hxn] at hn
        simp [listedSize, splitHeaders, hhand, ← hxn, hx, hxr, hn]
      · simp [listedSize, splitHeaders, hhand, hx, hxr, hxn]

theorem Indexed.absorb (h : Indexed c hand) (hhand : ∀ x, x ∈ hand ↔ x = p ∨ x = q)
    (hn : c.headers (q + b.size + 8) = some n) :
    Indexed { c with headers := absorbHeaders c.headers p q d b n } [p] := by
  refine h.withHeaders fun x => ?_
  by_cases hx : x = p
  · simp [listedSize, hx, hhand]
  · by_cases hxq : x = q
    · rw [hxq] at hx ⊢
      simp [listedSize, absorbHeaders, hx, hhand]
    · by_cases hxn : x = q + b.size + 8
      · rw [← hxn] at hn
        simp [listedSize, absorbHeaders, hhand, ← hxn, hx, hxq, hn]
      · simp [listedSize, absorbHeaders, hhand, hx, hxq, hxn]

/-! ## Runs of the operations on headers -/

namespace Control

@[simp] theorem setHeader_headers (c : Control) (q : Nat) (b : Header) :
    (c.setHeader q b).headers = Function.update c.headers q (some b) := rfl

theorem modify_eq (hb : c.headers q = some b) (f : Header → Header) :
    c.modify q f = some (c.setHeader q (f b)) := by
  simp [modify, hb]

theorem blockNext_eq (hb : c.headers q = some b) (hne : b.size ≠ 0) :
    c.blockNext q = some (q + b.size + 8) := by
  simp [blockNext, hb, guard, hne, blockHeaderOverhead]

theorem blockLinkNext_eq (hb : c.headers q = some b) (hne : b.size ≠ 0)
    (hn : c.headers (q + b.size + 8) = some n) :
    c.blockLinkNext q = some
      (c.setHeader (q + b.size + 8) { n with prevPhys := q }, q + b.size + 8) := by
  simp [blockLinkNext, blockNext_eq hb hne, modify_eq hn]

theorem blockMarkAsUsed_eq (hb : c.headers q = some b) (hne : b.size ≠ 0)
    (hn : c.headers (q + b.size + 8) = some n) :
    c.blockMarkAsUsed q = some { c with headers := usedHeaders c.headers q b n } := by
  have hb' : (c.setHeader (q + b.size + 8) { n with prevFree := false }).headers q = some b := by
    rw [setHeader_headers, Function.update_of_ne (by omega), hb]
  simp only [blockMarkAsUsed, blockNext_eq hb hne, modify_eq hn, modify_eq hb', Option.bind_eq_bind,
    Option.bind_some]
  rfl

theorem blockMarkAsFree_eq (hb : c.headers q = some b) (hne : b.size ≠ 0)
    (hn : c.headers (q + b.size + 8) = some n) :
    c.blockMarkAsFree q = some { c with headers := freedHeaders c.headers q b n } := by
  have hn' :
      (c.setHeader (q + b.size + 8) { n with prevPhys := q }).headers (q + b.size + 8) =
        some { n with prevPhys := q } := by
    rw [setHeader_headers, Function.update_self]
  have hb' : ((c.setHeader (q + b.size + 8) { n with prevPhys := q }).setHeader (q + b.size + 8)
      { n with prevPhys := q, prevFree := true }).headers q = some b := by
    rw [setHeader_headers, setHeader_headers, Function.update_of_ne (by omega),
      Function.update_of_ne (by omega), hb]
  simp only [blockMarkAsFree, blockLinkNext_eq hb hne hn, modify_eq hn', modify_eq hb',
    Option.bind_eq_bind, Option.bind_some]
  simp only [setHeader, freedHeaders, Function.update_idem]

end Control

/-! ## Alignment -/

/-- The next multiple; it may be 2⁶⁴, and the result then is 0. -/
theorem alignUp_spec {k x : Nat} (hk : k ≤ 64) (hx : x < addressSpace) :
    ∃ m, x ≤ 2 ^ k * m ∧ 2 ^ k * m < x + 2 ^ k ∧ 2 ^ k * m ≤ addressSpace ∧
    alignUp x (2 ^ k) = 2 ^ k * m % addressSpace := by
  have hpos : 0 < 2 ^ k := Nat.two_pow_pos k
  obtain ⟨e, he⟩ : 2 ^ k ∣ addressSpace := Nat.pow_dvd_pow 2 hk
  refine ⟨(x + (2 ^ k - 1)) / 2 ^ k, ?_, ?_, ?_, ?_⟩
  · have := Nat.div_add_mod (x + (2 ^ k - 1)) (2 ^ k)
    have := Nat.mod_lt (x + (2 ^ k - 1)) hpos
    omega
  · have := Nat.mul_div_le (x + (2 ^ k - 1)) (2 ^ k)
    omega
  · have hle : (x + (2 ^ k - 1)) / 2 ^ k ≤ e := by
      refine Nat.le_of_lt_succ ((Nat.div_lt_iff_lt_mul hpos).mpr ?_)
      rw [Nat.succ_mul, Nat.mul_comm, ← he]
      omega
    rw [he]
    exact Nat.mul_le_mul_left _ hle
  · unfold alignUp
    dsimp only
    generalize hy : x + (2 ^ k - 1) = y
    have hmod : y % addressSpace % 2 ^ k = y % 2 ^ k := by
      rw [he]
      exact Nat.mod_mul_right_mod ..
    rw [hmod]
    have hsplit := Nat.div_add_mod y (2 ^ k)
    have hlt := Nat.mod_lt y hpos
    obtain hsmall | hbig := Nat.lt_or_ge y addressSpace
    · have hlt' : 2 ^ k * (y / 2 ^ k) < addressSpace := by omega
      rw [Nat.mod_eq_of_lt hsmall, Nat.mod_eq_of_lt hlt']
      omega
    · -- past the end of the address space, and by less than an alignment
      have hle : 2 ^ k * e ≤ 2 ^ k * (y / 2 ^ k) := by
        refine Nat.mul_le_mul_left _ ((Nat.le_div_iff_mul_le hpos).mpr ?_)
        rw [Nat.mul_comm, ← he]
        exact hbig
      have hlt' : y < addressSpace + 2 ^ k := by omega
      have heq : 2 ^ k * (y / 2 ^ k) = addressSpace := by
        have hdiv : y / 2 ^ k < e + 1 := by
          rw [Nat.div_lt_iff_lt_mul hpos, Nat.add_mul, Nat.mul_comm e, ← he]
          omega
        have hle' : 2 ^ k * (y / 2 ^ k) ≤ 2 ^ k * e :=
          Nat.mul_le_mul_left _ (Nat.le_of_lt_succ hdiv)
        omega
      rw [heq, Nat.mod_self, Nat.mod_eq_sub_mod hbig, Nat.mod_eq_of_lt]
      · omega
      · have : 2 ^ k ≤ addressSpace := Nat.pow_le_pow_right (by decide) hk
        omega

theorem alignUp_of_dvd {k x : Nat} (hk : k ≤ 64) (hdvd : 2 ^ k ∣ x) (hx : x < addressSpace) :
    alignUp x (2 ^ k) = x := by
  obtain ⟨m, hle, hlt, -, heq⟩ := alignUp_spec hk hx
  obtain ⟨j, rfl⟩ := hdvd
  have hj : j = m := by
    refine Nat.le_antisymm (Nat.le_of_mul_le_mul_left hle (Nat.two_pow_pos k)) ?_
    refine Nat.le_of_lt_succ (Nat.lt_of_mul_lt_mul_left (a := 2 ^ k) ?_)
    rw [Nat.mul_succ]
    exact hlt
  rw [heq, ← hj, Nat.mod_eq_of_lt hx]

theorem alignPtr_of_dvd {x : Nat} (h8 : 8 ∣ x) (hx : x < addressSpace) : alignPtr x alignSize = x :=
  alignUp_of_dvd (k := 3) (by decide) h8 hx

/-! ## Trimming -/

/-- The headers after `block_split`. -/
def cutHeaders (H : Nat → Option Header) (q s : Nat) (b n : Header) : Nat → Option Header :=
  Function.update (Function.update (Function.update H (q + b.size + 8)
    (some { n with prevPhys := q + s + 8, prevFree := true })) q (some { b with size := s }))
      (q + s + 8)
    (some ⟨0, b.size - (s + 8), true, false⟩)

namespace Control

theorem blockSplit_eq (hb : c.headers q = some b) (hn : c.headers (q + b.size + 8) = some n)
    (h8q : 8 ∣ q) (h8 : 8 ∣ s) (hfit : s + 32 ≤ b.size) (hspace : q + b.size + 8 < addressSpace) :
    c.blockSplit q s = some ({ c with headers := cutHeaders c.headers q s b n }, q + s + 8) := by
  have halign : q + s + blockHeaderOverhead = alignPtr (q + s + blockHeaderOverhead) alignSize :=
    (alignPtr_of_dvd (show 8 ∣ q + s + 8 by omega) (show q + s + 8 < addressSpace by omega)).symm
  have hsize : b.size = b.size - (s + blockHeaderOverhead) + s + blockHeaderOverhead := by
    unfold blockHeaderOverhead
    omega
  have hmin : blockSizeMin ≤ b.size - (s + blockHeaderOverhead) := by
    unfold blockSizeMin blockHeaderOverhead
    omega
  have hend : q + s + 8 + (b.size - (s + 8)) + 8 = q + b.size + 8 := by omega
  have hr :
      ((c.setHeader (q + s + 8) ⟨0, b.size - (s + 8), false, false⟩).setHeader q
        { b with size := s }).headers (q + s + 8) =
      some ⟨0, b.size - (s + 8), false, false⟩ := by
    rw [setHeader_headers, Function.update_of_ne (by omega), setHeader_headers,
      Function.update_self]
  have hn' :
      ((c.setHeader (q + s + 8) ⟨0, b.size - (s + 8), false, false⟩).setHeader q
        { b with size := s }).headers
      (q + s + 8 + (b.size - (s + 8)) + 8) = some n := by
    rw [hend, setHeader_headers, Function.update_of_ne (by omega), setHeader_headers,
      Function.update_of_ne (by omega), hn]
  have hfree := blockMarkAsFree_eq hr (show b.size - (s + 8) ≠ 0 by omega) hn'
  simp only [blockSplit, hb, Option.bind_eq_bind, Option.bind_some]
  rw [guard, if_pos halign, guard, if_pos hsize, guard, if_pos hmin]
  simp only [Option.pure_def, Option.bind_some, blockHeaderOverhead]
  rw [hfree]
  simp only [Option.bind_some, freedHeaders, cutHeaders, hend, setHeader]
  congr 3
  funext x
  by_cases hxr : x = q + s + 8
  · simp [hxr]
  · by_cases hxn : x = q + b.size + 8
    · have hxq : x ≠ q := by omega
      simp [← hxn, hxr, hxq]
    · simp [Function.update_apply, hxr, hxn]

theorem blockTrimFree_eq (hb : c.headers q = some b) (hn : c.headers (q + b.size + 8) = some n)
    (hfree : b.free = true) (h8q : 8 ∣ q) (h8 : 8 ∣ s) (hmin : 24 ≤ s) (hfit : s + 32 ≤ b.size)
    (hspace : q + b.size + 8 < addressSpace) :
    c.blockTrimFree q s = { c with headers := splitHeaders c.headers q s b n }.blockInsert
      (q + s + 8) := by
  have hsplit : blockCanSplit b s = true := by
    unfold blockCanSplit sizeofBlockHeader
    rw [decide_eq_true_eq, Nat.mod_eq_of_lt (by omega)]
    omega
  have hrun := blockSplit_eq hb hn h8q h8 hfit hspace
  generalize hc₁ : ({ c with headers := cutHeaders c.headers q s b n } : Control) = c₁ at hrun
  have hq : c₁.headers q = some { b with size := s } := by
    rw [← hc₁]
    dsimp only [cutHeaders]
    rw [Function.update_of_ne (by omega), Function.update_self]
  have hr : c₁.headers (q + s + 8) = some ⟨0, b.size - (s + 8), true, false⟩ := by
    rw [← hc₁]
    exact Function.update_self ..
  have hlink := blockLinkNext_eq hq (show s ≠ 0 by omega) hr
  have hr' : (c₁.setHeader (q + s + 8) ⟨q, b.size - (s + 8), true, false⟩).headers (q + s + 8) =
      some ⟨q, b.size - (s + 8), true, false⟩ := Function.update_self ..
  simp only [blockTrimFree, hb, Option.bind_eq_bind, Option.bind_some]
  rw [guard, if_pos hfree, if_pos hsplit]
  simp only [Option.pure_def, Option.bind_some]
  rw [hrun, Option.bind_some, hlink, Option.bind_some, modify_eq hr', Option.bind_some]
  simp only [setHeader, ← hc₁, cutHeaders, Function.update_idem]
  rfl

theorem blockTrimFreeLeading_eq (hb : c.headers q = some b)
    (hn : c.headers (q + b.size + 8) = some n) (h8q : 8 ∣ q) (h8 : 8 ∣ gap) (hmin : 32 ≤ gap)
    (hfit : gap + 32 ≤ b.size) (hspace : q + b.size + 8 < addressSpace) :
    c.blockTrimFreeLeading q gap =
      ({ c with headers := splitHeaders c.headers q (gap - 8) b n }.blockInsert q).bind fun c =>
        some (c, q + gap) := by
  have hsplit : blockCanSplit b gap = true := by
    unfold blockCanSplit sizeofBlockHeader
    rw [decide_eq_true_eq, Nat.mod_eq_of_lt (by omega)]
    omega
  obtain ⟨s, rfl⟩ : ∃ s, gap = s + 8 := ⟨gap - 8, by omega⟩
  have hrun := blockSplit_eq hb hn h8q (show 8 ∣ s by omega) (by omega) hspace
  generalize hc₁ : ({ c with headers := cutHeaders c.headers q s b n } : Control) = c₁ at hrun
  have hr : c₁.headers (q + s + 8) = some ⟨0, b.size - (s + 8), true, false⟩ := by
    rw [← hc₁]
    exact Function.update_self ..
  have hq :
      (c₁.setHeader (q + s + 8) ⟨0, b.size - (s + 8), true, true⟩).headers q =
        some { b with size := s } := by
    rw [setHeader_headers, Function.update_of_ne (by omega), ← hc₁]
    dsimp only [cutHeaders]
    rw [Function.update_of_ne (by omega), Function.update_self]
  have hr' : (c₁.setHeader (q + s + 8) ⟨0, b.size - (s + 8), true, true⟩).headers (q + s + 8) =
      some ⟨0, b.size - (s + 8), true, true⟩ := Function.update_self ..
  have hlink := blockLinkNext_eq hq (show s ≠ 0 by omega) hr'
  simp only [blockTrimFreeLeading, hb, Option.bind_eq_bind, Option.bind_some, blockHeaderOverhead,
    Nat.add_sub_cancel]
  rw [if_pos hsplit]
  rw [hrun, Option.bind_some, modify_eq hr, Option.bind_some, hlink, Option.bind_some]
  simp only [setHeader, ← hc₁, cutHeaders, Function.update_idem]
  rfl

end Control

end Gpcl.Tlsf
