import Gpcl.Tlsf.Heap
import Gpcl.Tlsf.InMemory

/-! # What clients find in their blocks

A client that was given a block writes what it likes into the bytes that it asked for, and finds
there what it wrote last, whatever else is called meanwhile; `tlsf_realloc` takes the bytes along.
tlsf keeps its own data between the blocks and in the free ones, so nothing that clients write there
breaks it. -/
namespace Gpcl.Tlsf
open Lib.Memory Lib.Runs Lib.NullLists

/-- What clients do: they call tlsf, and they write bytes. -/
inductive Action
  | call (call : Call)
  | write (a : Nat) (v : UInt8)
deriving DecidableEq, Repr

/-! ## Blocks with their bytes -/

abbrev Contents := Nat → Option (List UInt8)

namespace Contents

/-- An answer to a request for new memory; what is in it at first is not said. -/
def Gives (C : Contents) (align size p : Nat) (C' : Contents) : Prop :=
  (p = 0 ∧ C' = C) ∨
    (p ≠ 0 ∧ align ∣ p ∧ C p = none ∧ ∃ l : List UInt8, l.length = size ∧
      C' = Function.update C p (some l))

/-- An answer to a request for another size: the bytes up to the smaller size are the same. -/
def Resizes (C : Contents) (q size p : Nat) (C' : Contents) : Prop :=
  if q = 0 then Gives C alignSize size p C'
  else if size = 0 then p = 0 ∧ C' = Function.update C q none
  else (p = 0 ∧ C' = C) ∨
    (p ≠ 0 ∧ (p = q ∨ C p = none) ∧ ∃ old l : List UInt8, C q = some old ∧ l.length = size ∧
      l.take old.length = old.take size ∧
        C' = Function.update (Function.update C q none) p (some l))

/-- The steps, with their answers. -/
def Step (C : Contents) : Action × Nat → Contents → Prop
  | (.call (.malloc size), p), C' => Gives C alignSize size p C'
  | (.call (.memalign align size), p), C' => Gives C align size p C'
  | (.call (.free q), _), C' => C' = Function.update C q none
  | (.call (.realloc q size), p), C' => Resizes C q size p C'
  | (.call (.addPool mem _), p), C' => p = mem ∧ C' = C
  | (.call (.removePool _), _), C' => C' = C
  | (.write a v, _), C' => C' = fun p => (C p).map fun l => if p ≤ a then l.set (a - p) v else l

end Contents

/-! ## tlsf in memory, with its clients -/

/-- `asked` has the sizes that clients asked for, under the addresses that they were given. -/
structure Machine where
  words : Words
  pools : List Region
  asked : Nat → Option Nat

namespace Machine
open Control (poolBytes)

/-- A control structure in `mem` at `null`, and no pool. -/
def created (null : Nat) (mem : Mem) : Machine := ⟨.construct null mem, [], fun _ => none⟩

def contents (s : Machine) : Contents := fun p => (s.asked p).map fun n => bytes s.words.mem ⟨p, n⟩

/-- What clients have after an answer. -/
def taken (asked : Nat → Option Nat) (p size : Nat) : Nat → Option Nat :=
  if p = 0 then asked else Function.update asked p (some size)

def resized (asked : Nat → Option Nat) (q size p : Nat) : Nat → Option Nat :=
  if q ≠ 0 ∧ size = 0 then Function.update asked q none
  else if p = 0 then asked else Function.update (Function.update asked q none) p (some size)

def perform (null : Nat) (s : Machine) : Call → Option (Machine × Nat)
  | .malloc size =>
    (s.words.malloc null size).map fun (w, p) => (⟨w, s.pools, taken s.asked p size⟩, p)
  | .memalign align size =>
    (s.words.memalign null align size).map fun (w, p) => (⟨w, s.pools, taken s.asked p size⟩, p)
  | .free p => (s.words.free null p).map fun w => (⟨w, s.pools, Function.update s.asked p none⟩, 0)
  | .realloc q size =>
    (s.words.realloc null q size).map fun (w, p) => (⟨w, s.pools, resized s.asked q size p⟩, p)
  | .addPool mem bytes =>
    (s.words.addPool null mem bytes).map fun (w, p) =>
      (⟨w, System.poolRegion mem bytes :: s.pools, s.asked⟩, p)
  | .removePool mem =>
    (s.words.removePool null mem).map fun w => (⟨w, s.pools.filter (·.base ≠ mem), s.asked⟩, 0)

/-- As for `System`, with the same three requests left out; and the control structure is in no
pool. -/
def Permitted (null : Nat) (s : Machine) : Call → Prop
  | .malloc size => size + alignSize ≤ addressSpace
  | .memalign align size => (∃ k < 63, align = 2 ^ k) ∧ size + alignSize ≤ addressSpace
  | .free p => p = 0 ∨ s.asked p ≠ none
  | .realloc p size => (p = 0 ∨ s.asked p ≠ none) ∧ size + alignSize ≤ addressSpace ∧
    (p = 0 ∨ size = 0 ∨ adjustRequestSize size alignSize ≠ 0)
  | .addPool mem bytes =>
    alignSize ∣ mem ∧ 16 ≤ mem ∧ poolOverhead ≤ bytes ∧ bytes < addressSpace ∧
      blockSizeMin ≤ poolBytes bytes ∧
    poolBytes bytes < blockSizeMax ∧ (System.poolRegion mem bytes).stop < addressSpace ∧
      (∀ r ∈ s.pools, (System.poolRegion mem bytes).Disjoint r) ∧
    Region.Disjoint ⟨null, sizeofControl⟩ (System.poolRegion mem bytes)
  | .removePool mem => ∃ r ∈ s.pools, r.base = mem ∧ ∀ p, r.Contains p → s.asked p = none

/-- Clients write into the bytes that they asked for, and where tlsf has nothing. -/
def Writable (null : Nat) (s : Machine) (a : Nat) : Prop :=
  (∃ p n, s.asked p = some n ∧ p ≤ a ∧ a < p + n) ∨
    ((∀ r ∈ s.pools, ¬ r.Contains a) ∧ ¬ Region.Contains ⟨null, sizeofControl⟩ a)

def write (s : Machine) (a : Nat) (v : UInt8) : Machine :=
  ⟨⟨Function.update s.words.mem a v, s.words.flBitmap, s.words.slBitmap, s.words.blocks⟩, s.pools,
    s.asked⟩

def Step (null : Nat) (s : Machine) : Action × Nat → Machine → Prop
  | (.call call, p), s' => s.Permitted null call ∧ s.perform null call = some (s', p)
  | (.write a v, _), s' => s.Writable null a ∧ s' = s.write a v

end Machine

/-! ## What was asked for, and what there is -/

structure Covers (asked live : Nat → Option Nat) : Prop where
  some : ∀ p n, asked p = some n → ∃ t, live p = Option.some t ∧ n ≤ t
  none : ∀ p, asked p = none → live p = Option.none

namespace Machine

variable {asked asked' live live' : Nat → Option Nat} {null p q size align n t : Nat} {w w' : Words}
    {c c' : Control}
  {pools pools' : List Region}

theorem covers_iff (h : Covers asked live) : asked p ≠ none ↔ live p ≠ none := by
  constructor
  · intro hne
    obtain ⟨n, hn⟩ := Option.ne_none_iff_exists'.mp hne
    obtain ⟨t, ht, -⟩ := h.some p n hn
    rw [ht]
    exact Option.some_ne_none t
  · exact fun hne hnone => hne (h.none p hnone)

theorem covers_update (h : Covers asked live) (hle : size ≤ t) :
    Covers (Function.update asked p (some size)) (Function.update live p (some t)) := by
  constructor
  · intro q n hn
    by_cases hq : q = p
    · rw [hq, Function.update_self] at hn ⊢
      cases hn
      exact ⟨t, rfl, hle⟩
    · rw [Function.update_of_ne hq] at hn ⊢
      exact h.some q n hn
  · intro q hn
    by_cases hq : q = p
    · rw [hq, Function.update_self] at hn
      cases hn
    · rw [Function.update_of_ne hq] at hn ⊢
      exact h.none q hn

theorem covers_erase (h : Covers asked live) :
    Covers (Function.update asked p none) (Function.update live p none) := by
  constructor
  · intro q n hn
    by_cases hq : q = p
    · rw [hq, Function.update_self] at hn
      cases hn
    · rw [Function.update_of_ne hq] at hn ⊢
      exact h.some q n hn
  · intro q hn
    by_cases hq : q = p
    · rw [hq, Function.update_self]
    · rw [Function.update_of_ne hq] at hn ⊢
      exact h.none q hn

/-- What is asked for before and after keeps its bytes. -/
theorem contents_kept (hsim : Simulates null w c w' c') (hs : Settled pools c live)
    (hs' : Settled pools' c' live') (hc : Covers asked live) (hc' : Covers asked' live')
    (hp : asked' p = asked p) :
    (⟨w', pools', asked'⟩ : Machine).contents p = (⟨w, pools, asked⟩ : Machine).contents p := by
  unfold contents
  dsimp only
  rw [hp]
  cases hn : asked p with
  | none => rfl
  | some n =>
    obtain ⟨t, ht, hle⟩ := hc.some p n hn
    obtain ⟨t', ht', hle'⟩ := hc'.some p n (hp.trans hn)
    refine congrArg some (bytes_congr rfl fun i hi => ?_)
    dsimp only at hi ⊢
    exact hsim.kept _ (hs.usedByte.mpr ⟨p, t, ht, by omega, by omega⟩)
      (hs'.usedByte.mpr ⟨p, t', ht', by omega, by omega⟩)

theorem contents_same (hsim : Simulates null w c w' c') (hs : Settled pools c live)
    (hs' : Settled pools' c' live') (hc : Covers asked live) (hc' : Covers asked live') :
    (⟨w', pools', asked⟩ : Machine).contents = (⟨w, pools, asked⟩ : Machine).contents :=
  funext fun _ => contents_kept hsim hs hs' hc hc' rfl

theorem contents_none (h : asked p = none) : (⟨w, pools, asked⟩ : Machine).contents p = none := by
  unfold contents
  dsimp only
  rw [h, Option.map_none]

/-- One block that is given or resized. -/
theorem contents_update (hsim : Simulates null w c w' c') (hs : Settled pools c live)
    (hs' : Settled pools c' live') (hc : Covers asked live)
    (hc' : Covers (Function.update (Function.update asked q none) p (some size)) live') :
    (⟨w', pools, Function.update (Function.update asked q none) p (some size)⟩ : Machine).contents =
      Function.update (Function.update (⟨w, pools, asked⟩ : Machine).contents q none) p
        (some (bytes w'.mem ⟨p, size⟩)) := by
  funext x
  by_cases hxp : x = p
  · rw [hxp, Function.update_self]
    unfold contents
    dsimp only
    rw [Function.update_self, Option.map_some]
  · rw [Function.update_of_ne hxp]
    by_cases hxq : x = q
    · rw [hxq, Function.update_self]
      refine contents_none ?_
      rw [Function.update_of_ne (hxq ▸ hxp), Function.update_self]
    · rw [Function.update_of_ne hxq]
      refine contents_kept hsim hs hs' hc hc' ?_
      rw [Function.update_of_ne hxp, Function.update_of_ne hxq]

theorem contents_erase (hsim : Simulates null w c w' c') (hs : Settled pools c live)
    (hs' : Settled pools c' live') (hc : Covers asked live)
    (hc' : Covers (Function.update asked q none) live') :
    (⟨w', pools, Function.update asked q none⟩ : Machine).contents =
      Function.update (⟨w, pools, asked⟩ : Machine).contents q none := by
  funext x
  by_cases hxq : x = q
  · rw [hxq, Function.update_self]
    exact contents_none (Function.update_self ..)
  · rw [Function.update_of_ne hxq]
    exact contents_kept hsim hs hs' hc hc' (Function.update_of_ne hxq ..)

/-! ## Answers -/

theorem gives_contents (hsim : Simulates null w c w' c') (hs : Settled pools c live)
    (hs' : Settled pools c' live') (hc : Covers asked live)
    (h : Heap.Gives live align size p live') : Covers (taken asked p size) live' ∧
      Contents.Gives (⟨w, pools, asked⟩ : Machine).contents align size p
        (⟨w', pools, taken asked p size⟩ : Machine).contents := by
  obtain ⟨hp0, rfl⟩ | ⟨hp0, hdvd, hfresh, t, hle, rfl⟩ := h
  · unfold taken
    rw [if_pos hp0]
    exact ⟨hc, .inl ⟨hp0, contents_same hsim hs hs' hc hc⟩⟩
  · unfold taken
    rw [if_neg hp0]
    have hnone : asked p = none :=
      Classical.byContradiction fun hne => (covers_iff hc).mp hne hfresh
    have hself : Function.update asked p none = asked := Function.update_eq_self_iff.mpr hnone.symm
    have hc' : Covers (Function.update asked p (some size)) (Function.update live p (some t)) :=
      covers_update hc hle
    have hupdate := contents_update (q := p) hsim hs hs' hc (by rw [hself]; exact hc')
    have hfree : (⟨w, pools, asked⟩ : Machine).contents p = none := contents_none hnone
    rw [hself, Function.update_idem] at hupdate
    exact ⟨hc', .inr ⟨hp0, hdvd, hfree, _, length_bytes .., hupdate⟩⟩

theorem resizes_contents (hsim : Simulates null w c w' c') (hs : Settled pools c live)
    (hs' : Settled pools c' live') (hc : Covers asked live) (hq : q = 0 ∨ asked q ≠ none)
    (h : Heap.Resizes live q size p live')
    (hmoved : ∀ n, q ≠ 0 → size ≠ 0 → p ≠ 0 → asked q = some n →
      ∀ i < min n size, w'.mem (p + i) = w.mem (q + i)) :
    Covers (resized asked q size p) live' ∧
      Contents.Resizes (⟨w, pools, asked⟩ : Machine).contents q size p
        (⟨w', pools, resized asked q size p⟩ : Machine).contents := by
  have hzero : asked 0 = none :=
    Classical.byContradiction fun hne => (covers_iff hc).mp hne hs.live_zero
  unfold Heap.Resizes at h
  unfold Contents.Resizes resized
  by_cases hq0 : q = 0
  · rw [if_pos hq0] at h ⊢
    have hcond : ¬ (q ≠ 0 ∧ size = 0) := fun hand => hand.1 hq0
    have hself : Function.update asked q none = asked := by
      rw [hq0]
      exact Function.update_eq_self_iff.mpr hzero.symm
    rw [if_neg hcond, hself]
    exact gives_contents hsim hs hs' hc h
  · rw [if_neg hq0] at h ⊢
    by_cases hs0 : size = 0
    · rw [if_pos hs0] at h ⊢
      rw [if_pos ⟨hq0, hs0⟩]
      obtain ⟨hp0, rfl⟩ := h
      have hc' : Covers (Function.update asked q none) (Function.update live q none) :=
        covers_erase hc
      exact ⟨hc', hp0, contents_erase hsim hs hs' hc hc'⟩
    · rw [if_neg hs0] at h ⊢
      rw [if_neg fun hand => hs0 hand.2]
      obtain ⟨hp0, rfl⟩ | ⟨hp0, hplace, t, hle, rfl⟩ := h
      · rw [if_pos hp0]
        exact ⟨hc, .inl ⟨hp0, contents_same hsim hs hs' hc hc⟩⟩
      · rw [if_neg hp0]
        obtain ⟨n, hn⟩ := Option.ne_none_iff_exists'.mp (hq.resolve_left hq0)
        have hc' :
            Covers (Function.update (Function.update asked q none) p (some size))
              (Function.update (Function.update live q none) p (some t)) :=
          covers_update (covers_erase hc) hle
        refine ⟨hc', .inr ⟨hp0, hplace.imp_right fun hnone => contents_none ?_, bytes w.mem ⟨q, n⟩,
          bytes w'.mem ⟨p, size⟩, ?_, ?_, ?_, ?_⟩⟩
        · exact Classical.byContradiction fun hne => (covers_iff hc).mp hne hnone
        · unfold contents
          dsimp only
          rw [hn, Option.map_some]
        · exact length_bytes ..
        · refine List.ext_getElem? fun i => ?_
          rw [length_bytes, List.getElem?_take, List.getElem?_take]
          by_cases hi : i < min n size
          · rw [if_pos (by dsimp only; omega), if_pos (by omega),
              getElem?_bytes (by dsimp only; omega), getElem?_bytes (by dsimp only; omega)]
            exact congrArg some (hmoved n hq0 hs0 hp0 hn i hi)
          · by_cases hin : i < n
            · rw [if_pos hin, if_neg (by omega),
                List.getElem?_eq_none (by rw [length_bytes]; dsimp only; omega)]
            · rw [if_neg hin]
              split
              · rw [List.getElem?_eq_none (by rw [length_bytes]; dsimp only; omega)]
              · rfl
        · exact contents_update hsim hs hs' hc hc'

/-! ## Steps -/

/-- What holds between two actions: the words hold headers and lists that tlsf is sound with. -/
structure Ok (null : Nat) (s : Machine) (c : Control) : Prop where
  holds : Holds null s.words c
  system : (⟨c, s.pools⟩ : System).Ok
  placed : Placed null s.pools
  covers : Covers s.asked (⟨c, s.pools⟩ : System).live

variable {s s' : Machine} {a : Nat} {v : UInt8}

theorem Ok.write (h : s.Ok null c) (ha : s.Writable null a) (v : UInt8) : (s.write a v).Ok null c ∧
    Contents.Step s.contents (.write a v, p) (s.write a v).contents := by
  have hs : Settled s.pools c (⟨c, s.pools⟩ : System).live := h.system
  refine ⟨⟨h.holds.write hs.sound.laid hs.sound.indexed fun x hx => Function.update_of_ne ?_ ..,
    h.system, h.placed, h.covers⟩, ?_⟩
  · rintro rfl
    refine hx (ha.imp_left ?_)
    rintro ⟨p, n, hp, hle, hlt⟩
    obtain ⟨t, ht, hnt⟩ := h.covers.some p n hp
    exact hs.usedByte.mpr ⟨p, t, ht, hle, by omega⟩
  · show _ = fun p => _
    funext p
    unfold contents Machine.write
    dsimp only
    rw [Option.map_map]
    refine Option.map_congr fun n _ => ?_
    by_cases hpa : p ≤ a
    · obtain ⟨i, rfl⟩ := Nat.exists_eq_add_of_le hpa
      rw [Function.comp_apply, if_pos hpa, Nat.add_sub_cancel_left]
      exact bytes_update
    · rw [Function.comp_apply, if_neg hpa]
      exact bytes_update_of_not_contains fun hin => hpa hin.1

theorem Ok.settled (h : s.Ok null c) : Settled s.pools c (⟨c, s.pools⟩ : System).live := h.system

theorem lt_of_request (hsize : size + alignSize ≤ addressSpace) : size < addressSpace := by
  unfold alignSize at hsize
  omega

theorem Ok.malloc (h : s.Ok null c) (hsize : size + alignSize ≤ addressSpace) :
    ∃ s' p c', s.perform null (.malloc size) = some (s', p) ∧
    s'.Ok null c' ∧ Contents.Gives s.contents alignSize size p s'.contents := by
  obtain ⟨c', p, hrun, hok, hgives⟩ := h.system.malloc hsize
  obtain ⟨w', hrun', hsim⟩ := h.holds.malloc h.settled h.placed (lt_of_request hsize) hrun
  obtain ⟨hcovers, hcontents⟩ := gives_contents hsim h.settled hok h.covers hgives
  exact ⟨⟨w', s.pools, taken s.asked p size⟩, p, c', by rw [perform, hrun']; rfl,
    ⟨hsim.holds, hok, h.placed, hcovers⟩, hcontents⟩

theorem Ok.memalign (h : s.Ok null c) {k : Nat} (hk : k < 63)
    (hsize : size + alignSize ≤ addressSpace) :
    ∃ s' p c', s.perform null (.memalign (2 ^ k) size) = some (s', p) ∧ s'.Ok null c' ∧
      Contents.Gives s.contents (2 ^ k) size p s'.contents := by
  obtain ⟨c', p, hrun, hok, hgives⟩ := h.system.memalign hk hsize
  obtain ⟨w', hrun', hsim⟩ := h.holds.memalign h.settled h.placed hk (lt_of_request hsize) hrun
  obtain ⟨hcovers, hcontents⟩ := gives_contents hsim h.settled hok h.covers hgives
  exact ⟨⟨w', s.pools, taken s.asked p size⟩, p, c', by rw [perform, hrun']; rfl,
    ⟨hsim.holds, hok, h.placed, hcovers⟩, hcontents⟩

theorem Ok.free_words (h : s.Ok null c) (hp : p = 0 ∨ s.asked p ≠ none) :
    ∃ c' w', c.free p = some c' ∧ s.words.free null p = some w' ∧
    Simulates null s.words c w' c' ∧ (⟨c', s.pools⟩ : System).Ok ∧
      (⟨c', s.pools⟩ : System).live = Function.update (⟨c, s.pools⟩ : System).live p none := by
  obtain ⟨c', hrun, hok, hlive⟩ := h.system.free (hp.imp_right (covers_iff h.covers).mp)
  by_cases hp0 : p = 0
  · have hsame : c.free p = some c := by rw [Control.free, if_pos hp0]
    cases hsame.symm.trans hrun
    exact ⟨c, s.words, hsame, by rw [Words.free, if_pos hp0], h.holds.simulates, hok, hlive⟩
  · obtain ⟨t, ht⟩ := Option.ne_none_iff_exists'.mp ((covers_iff h.covers).mp (hp.resolve_left hp0))
    obtain ⟨w', hrun', hsim⟩ := h.holds.free h.settled h.placed ht hrun
    exact ⟨c', w', hrun, hrun', hsim, hok, hlive⟩

theorem Ok.free (h : s.Ok null c) (hp : p = 0 ∨ s.asked p ≠ none) :
    ∃ s' c', s.perform null (.free p) = some (s', 0) ∧
    s'.Ok null c' ∧ s'.contents = Function.update s.contents p none := by
  obtain ⟨c', w', -, hrun', hsim, hok, hlive⟩ := h.free_words hp
  have hcovers : Covers (Function.update s.asked p none) (⟨c', s.pools⟩ : System).live := by
    rw [hlive]
    exact covers_erase h.covers
  exact ⟨⟨w', s.pools, Function.update s.asked p none⟩, c', by rw [perform, hrun']; rfl,
    ⟨hsim.holds, hok, h.placed, hcovers⟩,
    contents_erase hsim h.settled hok h.covers hcovers⟩

theorem Ok.realloc (h : s.Ok null c) (hq : q = 0 ∨ s.asked q ≠ none)
    (hsize : size + alignSize ≤ addressSpace)
    (hadjust : q = 0 ∨ size = 0 ∨ adjustRequestSize size alignSize ≠ 0) :
    ∃ s' p c', s.perform null (.realloc q size) = some (s', p) ∧
      s'.Ok null c' ∧ Contents.Resizes s.contents q size p s'.contents := by
  obtain ⟨c', p, hrun, hok, hresizes⟩ :=
    h.system.realloc (hq.imp_right (covers_iff h.covers).mp) hsize hadjust
  have hanswer : ∀ {w' : Words}, s.words.realloc null q size = some (w', p) →
    Simulates null s.words c w' c' →
      (∀ n, q ≠ 0 → size ≠ 0 → p ≠ 0 → s.asked q = some n →
        ∀ i < min n size, w'.mem (p + i) = s.words.mem (q + i)) →
      ∃ s' p c', s.perform null (.realloc q size) = some (s', p) ∧ s'.Ok null c' ∧
        Contents.Resizes s.contents q size p s'.contents := by
    intro w' hrun' hsim hmoved
    obtain ⟨hcovers, hcontents⟩ := resizes_contents hsim h.settled hok h.covers hq hresizes hmoved
    exact ⟨⟨w', s.pools, resized s.asked q size p⟩, p, c', by rw [perform, hrun']; rfl,
      ⟨hsim.holds, hok, h.placed, hcovers⟩, hcontents⟩
  by_cases hq0 : q = 0
  · have hcond : ¬ (q ≠ 0 ∧ size = 0) := fun hand => hand.1 hq0
    rw [Control.realloc, if_neg hcond, if_pos hq0] at hrun
    obtain ⟨w', hrun', hsim⟩ := h.holds.malloc h.settled h.placed (lt_of_request hsize) hrun
    refine hanswer ?_ hsim fun _ hne => absurd hq0 hne
    rw [Words.realloc, if_neg hcond, if_pos hq0]
    exact hrun'
  · by_cases hs0 : size = 0
    · obtain ⟨c₁, w', hfree, hrun', hsim, -⟩ := h.free_words hq
      rw [Control.realloc, if_pos ⟨hq0, hs0⟩, hfree] at hrun
      obtain ⟨rfl, rfl⟩ := Prod.mk.inj (Option.some.inj hrun)
      refine hanswer ?_ hsim fun _ _ hne => absurd hs0 hne
      rw [Words.realloc, if_pos ⟨hq0, hs0⟩, hrun']
      rfl
    · obtain ⟨t, ht⟩ :=
        Option.ne_none_iff_exists'.mp ((covers_iff h.covers).mp (hq.resolve_left hq0))
      obtain ⟨w', hrun', hsim, hmoved⟩ :=
        h.holds.realloc h.settled h.placed ht hsize
          ((hadjust.resolve_left hq0).resolve_left hs0) hrun
      refine hanswer hrun' hsim fun n _ _ hp0 hn i hi => hmoved hp0 i ?_
      obtain ⟨t', ht', hle⟩ := h.covers.some q n hn
      cases ht.symm.trans ht'
      omega

theorem Ok.addPool (h : s.Ok null c) {mem bytes : Nat} (hbytes : Control.poolBytes bytes = size)
    (hmem : 8 ∣ mem) (h8 : 8 ∣ size) (hmin : 24 ≤ size) (hmax : size < blockSizeMax)
    (hspace : mem + (size + 16) < addressSpace)
    (hfresh : ∀ r ∈ s.pools, Region.Disjoint ⟨mem, size + 16⟩ r) (hlow : 16 ≤ mem)
    (hcontrol : Region.Disjoint ⟨null, sizeofControl⟩ ⟨mem, size + 16⟩) :
    ∃ w' c', s.words.addPool null mem bytes = some (w', mem) ∧
    (⟨w', ⟨mem, size + 16⟩ :: s.pools, s.asked⟩ : Machine).Ok null c' ∧
      (⟨w', ⟨mem, size + 16⟩ :: s.pools, s.asked⟩ : Machine).contents = s.contents := by
  have hplaced : Placed null (⟨mem, size + 16⟩ :: s.pools) := by
    refine ⟨h.placed.pos, h.placed.aligned, h.placed.space, fun r hr => ?_, fun r hr => ?_⟩
    · obtain rfl | hr := List.mem_cons.mp hr
      · exact hcontrol
      · exact h.placed.apart r hr
    · obtain rfl | hr := List.mem_cons.mp hr
      · exact hlow
      · exact h.placed.low r hr
  obtain ⟨c', hrun, hok, hlive⟩ := h.system.addPool hbytes hmem h8 hmin hmax hspace hfresh
  obtain ⟨w', hrun', hsim⟩ :=
    h.holds.addPool h.settled hplaced hmem hbytes h8 hmin hmax (by omega) hfresh hrun
  have hcovers : Covers s.asked (⟨c', ⟨mem, size + 16⟩ :: s.pools⟩ : System).live := by
    rw [hlive]
    exact h.covers
  exact ⟨w', c', hrun', ⟨hsim.holds, hok, hplaced, hcovers⟩,
    contents_same hsim h.settled hok h.covers hcovers⟩

theorem Ok.removePool (h : s.Ok null c) {mem : Nat} (hp : s.Permitted null (.removePool mem)) :
    ∃ s' c', s.perform null (.removePool mem) = some (s', 0) ∧ s'.Ok null c' ∧
    s'.contents = s.contents := by
  obtain ⟨r, hr, rfl, hnone⟩ := hp
  obtain ⟨b, n, hv⟩ := h.settled.vacant hr fun p hin => h.covers.none p (hnone p hin)
  obtain ⟨c', hrun, hsettled⟩ := h.settled.removePool hr hv
  obtain ⟨w', hrun', hsim⟩ := h.holds.removePool h.settled h.placed hr hv hrun
  have hpools : s.pools.filter (·.base ≠ r.base) = s.pools.filter (· ≠ r) :=
    h.settled.pools_by_base hr
  rw [← hpools] at hsettled
  obtain ⟨hok, hlive⟩ := System.Ok.settled hsettled
  have hcovers : Covers s.asked (⟨c', s.pools.filter (·.base ≠ r.base)⟩ : System).live := by
    rw [hlive]
    exact h.covers
  have hplaced : Placed null (s.pools.filter (·.base ≠ r.base)) :=
    ⟨h.placed.pos, h.placed.aligned, h.placed.space,
      fun r' hr' => h.placed.apart r' (List.mem_of_mem_filter hr'),
      fun r' hr' => h.placed.low r' (List.mem_of_mem_filter hr')⟩
  exact ⟨⟨w', s.pools.filter (·.base ≠ r.base), s.asked⟩, c', by rw [perform, hrun']; rfl,
    ⟨hsim.holds, hok, hplaced, hcovers⟩,
    contents_same hsim h.settled hok h.covers hcovers⟩

/-- Every call that clients may make is answered, as the step says. -/
theorem Ok.perform (h : s.Ok null c) {call : Call} (hp : s.Permitted null call) :
    ∃ s' p c', s.perform null call = some (s', p) ∧ s'.Ok null c' ∧
    Contents.Step s.contents (.call call, p) s'.contents := by
  cases call with
  | malloc size => exact h.malloc hp
  | memalign align size =>
    obtain ⟨⟨k, hk, rfl⟩, hsize⟩ := hp
    exact h.memalign hk hsize
  | free p =>
    obtain ⟨s', c', hrun, hok, hcontents⟩ := h.free hp
    exact ⟨s', 0, c', hrun, hok, hcontents⟩
  | realloc q size => exact h.realloc hp.1 hp.2.1 hp.2.2
  | addPool mem bytes =>
    obtain ⟨hmem, hlow, -, hbytes, hmin, hmax, hspace, hfresh, hcontrol⟩ := hp
    obtain ⟨w', c', hrun, hok, hcontents⟩ :=
      h.addPool rfl hmem (poolBytes_spec hbytes).1 hmin hmax hspace hfresh hlow hcontrol
    exact ⟨⟨w', System.poolRegion mem bytes :: s.pools, s.asked⟩, mem, c',
      by rw [Machine.perform, hrun]; rfl, hok, rfl, hcontents⟩
  | removePool mem =>
    obtain ⟨s', c', hrun, hok, hcontents⟩ := h.removePool hp
    exact ⟨s', 0, c', hrun, hok, hcontents⟩

/-! ## Runs -/

theorem ok_created {mem : Mem} (hpos : 0 < null) (h8 : 8 ∣ null)
    (hspace : null + sizeofControl < addressSpace) :
    (created null mem).Ok null Control.construct := by
  refine ⟨⟨?_, ?_, fun fl sl => ⟨[], rfl, rfl⟩, rfl, rfl⟩, System.ok_created,
    ⟨hpos, h8, hspace, ?_, ?_⟩, ⟨?_, fun _ _ => rfl⟩⟩
  · intro block h hx
    cases hx
  · intro block h hx
    cases hx
  · exact fun r hr => absurd hr List.not_mem_nil
  · exact fun r hr => absurd hr List.not_mem_nil
  · intro p n hn
    cases hn

theorem Ok.step (h : s.Ok null c) {b : Action × Nat} (hstep : Step null s b s') :
    (∃ c', s'.Ok null c') ∧ Contents.Step s.contents b s'.contents := by
  obtain ⟨action, p⟩ := b
  cases action with
  | call call =>
    obtain ⟨hp, hrun⟩ := hstep
    obtain ⟨s₁, p₁, c', hrun₁, hok, hcontents⟩ := h.perform hp
    obtain ⟨rfl, rfl⟩ := Prod.mk.inj (Option.some.inj (hrun₁.symm.trans hrun))
    exact ⟨⟨c', hok⟩, hcontents⟩
  | write a v =>
    obtain ⟨ha, rfl⟩ := hstep
    obtain ⟨hok, hcontents⟩ := h.write ha v
    exact ⟨⟨c, hok⟩, hcontents⟩

theorem Ok.run {mem : Mem} (hpos : 0 < null) (h8 : 8 ∣ null)
    (hspace : null + sizeofControl < addressSpace) {as : List (Action × Nat)}
    (h : Run (Step null) (created null mem) as s) :
    (∃ c, s.Ok null c) ∧ Run Contents.Step (fun _ => none) as s.contents := by
  induction h with
  | nil => exact ⟨⟨_, ok_created hpos h8 hspace⟩, .nil⟩
  | snoc _ hstep ih =>
    obtain ⟨⟨c, hok⟩, hrun⟩ := ih
    obtain ⟨hok', hcontents⟩ := hok.step hstep
    exact ⟨hok', hrun.snoc hcontents⟩

theorem Ok.apart (h : s.Ok null c) {m : Nat} (hp : s.asked p = some n) (hq : s.asked q = some m)
    (hne : p ≠ q) :
    p + n + 8 ≤ q ∨ q + m + 8 ≤ p := by
  obtain ⟨t, ht, hle⟩ := h.covers.some p n hp
  obtain ⟨u, hu, hle'⟩ := h.covers.some q m hq
  have := h.system.disjoint ht hu hne
  omega

theorem Ok.inside (h : s.Ok null c) (hp : s.asked p = some n) :
    ∃ r ∈ s.pools, r.base + 8 ≤ p ∧ p + n + 8 ≤ r.stop := by
  obtain ⟨t, ht, hle⟩ := h.covers.some p n hp
  obtain ⟨-, -, r, hr, hbase, hstop⟩ := h.system.owned ht
  exact ⟨r, hr, hbase, by omega⟩

end Machine

end Gpcl.Tlsf
