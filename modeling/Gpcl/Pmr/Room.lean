import Gpcl.Pmr.Returned

/-! # When an allocation of a monotonic_buffer_resource is served

The padding for the alignment is taken out of a block whose size was chosen from `bytes`
alone, so a new block may have no room for what it was obtained for. As long as nothing is
released an allocation is served exactly when the window or the new block has room. -/
namespace Gpcl.Pmr.Monotonic
open Lib.Memory Lib.Runs

/-- The bytes that are skipped for the alignment. -/
def pad (base alignment : Nat) : Nat := (alignment - base % alignment) % alignment

/-- There is room for the padding and `bytes` behind it, and the padding does not use up the
region. -/
def HasRoom (b : Region) (bytes alignment : Nat) : Prop :=
  pad b.base alignment < b.size ∧ pad b.base alignment + bytes ≤ b.size

instance (b : Region) (bytes alignment : Nat) : Decidable (HasRoom b bytes alignment) :=
  inferInstanceAs (Decidable (_ ∧ _))

/-- The memory a resource may hand out: the buffer of its user and the usable bytes of its
blocks. -/
def buffers (user : Region) (s : Monotonic) : List Region := user :: s.held.map payload

/-- `do_allocate` returns aligned memory of one buffer, apart from all it returned before. -/
def Serves (user : Region) (made : List Grant) (s : Monotonic) (up : Upstream)
    (bytes alignment : Nat) : Prop :=
  ∃ s' p, s.doAllocate up bytes alignment = some (s', some p) ∧ p ≠ 0 ∧ p % alignment = 0 ∧
    (∃ b ∈ buffers user s', Region.Inside ⟨p, bytes⟩ b) ∧
      ∀ a ∈ made, Region.Disjoint ⟨p, bytes⟩ (region a)

/-- The allocation that an operation makes, if it makes one. -/
def madeBy (w : World) : Op → List Grant
  | .allocate up bytes alignment =>
    ((w.res.bind fun s => s.allocate up bytes alignment).map fun t =>
      liveAfter bytes alignment [] t.2).getD []
  | _ => []

/-- A world with all the allocations that were made, also those given back. -/
structure Logged where
  world : World
  made : List Grant

def Logged.start : Logged := ⟨World.start, []⟩

/-- A step in which no size computation wraps and nothing is released. -/
def LoggedStep (t : Logged) (op : Op) (t' : Logged) : Prop :=
  FitStep t.world op t'.world ∧ ¬ op.GivesBack ∧ t'.made = madeBy t.world op ++ t.made

/-- The invariant, for all the allocations that were made, and what is in the window was not handed
out. -/
structure Spent (user : Region) (made : List Grant) (s : Monotonic) : Prop where
  inv : Inv user made s
  user : 0 < user.base ∨ user.size = 0
  window : ∀ a ∈ made, (region a).Disjoint s.buffer
  apart : made.Pairwise fun a a' => (region a).Disjoint (region a')

section
variable {s s' : Monotonic} {user : Region} {made : List Grant} {up : Upstream}
    {bytes alignment : Nat}

/-! ## The window -/

theorem allocFromBuffer_room (h : HasRoom s.buffer bytes alignment) :
    s.allocFromBuffer bytes alignment =
      ({ s with
        buffer := advance ⟨s.buffer.base + pad s.buffer.base alignment,
          s.buffer.size - pad s.buffer.base alignment⟩ bytes },
        s.buffer.base + pad s.buffer.base alignment) := by
  obtain ⟨hlt, hle⟩ := h
  have hoff : ¬ pad s.buffer.base alignment > s.buffer.size := by omega
  have hadv : advance s.buffer (pad s.buffer.base alignment) =
      ⟨s.buffer.base + pad s.buffer.base alignment,
        s.buffer.size - pad s.buffer.base alignment⟩ := by
    rw [advance, if_pos hlt]
  have hsize : ¬ s.buffer.size - pad s.buffer.base alignment < bytes := by omega
  rw [allocFromBuffer, ← pad, if_neg hoff]
  simp only [hadv, if_neg hsize]

theorem allocFromBuffer_full (h : ¬ HasRoom s.buffer bytes alignment) :
    (s.allocFromBuffer bytes alignment).2 = 0 := by
  rw [allocFromBuffer, ← pad]
  by_cases hoff : pad s.buffer.base alignment > s.buffer.size
  · rw [if_pos hoff]
  rw [if_neg hoff]
  by_cases hlt : s.buffer.size > pad s.buffer.base alignment
  · have hsize : s.buffer.size - pad s.buffer.base alignment < bytes := by
      by_contra hge
      exact h ⟨hlt, by omega⟩
    simp only [advance, if_pos hlt, if_pos hsize]
  · simp only [advance, if_neg hlt]
    split <;> rfl

/-- What is left of the window, for one who holds nothing of it. -/
theorem disjoint_advance {r b : Region} {n : Nat} (h : r.Disjoint b) :
    r.Disjoint (advance b n) := by
  unfold advance
  split
  · simp only [Region.Disjoint, Region.stop] at *
    omega
  · exact .inr (Nat.zero_le _)

theorem disjoint_allocFromBuffer {r : Region} (bytes alignment : Nat) (h : r.Disjoint s.buffer) :
    r.Disjoint (s.allocFromBuffer bytes alignment).1.buffer := by
  rw [allocFromBuffer]
  split
  · exact h
  dsimp only
  split
  · exact disjoint_advance h
  · exact disjoint_advance (disjoint_advance h)

/-- The front of the window is apart from what is left of it. -/
theorem front_disjoint_advance (b : Region) (n : Nat) :
    Region.Disjoint ⟨b.base, n⟩ (advance b n) := by
  unfold advance
  split
  · exact .inl (Nat.le_refl _)
  · exact .inr (Nat.zero_le _)

/-! ## Methods -/

theorem Spent.window_pos (h : Spent user made s) (hs : 0 < s.buffer.size) : 0 < s.buffer.base := by
  rcases h.inv.window with hw | ⟨-, hlo, hhi⟩ | ⟨g, held, hh, hlo, -⟩
  · omega
  · have hu := h.user
    simp only [Region.stop] at hhi
    omega
  · have hg := (h.inv.blocks g (by simp [hh])).1
    simp only [payload] at hlo
    omega

/-- `alloc_from_buffer` returns a pointer exactly when there is room. -/
theorem Spent.allocFromBuffer_spec (h : Spent user made s) (bytes : Nat) (ha : 0 < alignment) :
    ∃ s' p, s.allocFromBuffer bytes alignment = (s', p) ∧ s'.held = s.held ∧
    s'.nextBufferBytes = s.nextBufferBytes ∧
      p % alignment = 0 ∧ (p ≠ 0 ↔ HasRoom s.buffer bytes alignment) ∧
      Spent user (liveAfter bytes alignment made (some p)) s' := by
  obtain ⟨s', p, hrun, hal, hnext, hheld, hinv⟩ := h.inv.allocFromBuffer_inv bytes ha
  have hold : ∀ a ∈ made, (region a).Disjoint s'.buffer := by
    intro a hm
    have := disjoint_allocFromBuffer bytes alignment (h.window a hm)
    rwa [hrun] at this
  by_cases hroom : HasRoom s.buffer bytes alignment
  · obtain ⟨hs, hp⟩ := Prod.mk.inj (hrun.symm.trans (allocFromBuffer_room hroom))
    have hpos := h.window_pos (Nat.zero_lt_of_lt hroom.1)
    have hp0 : p ≠ 0 := by omega
    have hlist : liveAfter bytes alignment made (some p) = ⟨p, bytes, alignment⟩ :: made :=
      if_neg hp0
    have hin : Region.Inside ⟨p, bytes⟩ s.buffer := by
      obtain ⟨-, hle⟩ := hroom
      simp only [Region.Inside, Region.stop]
      omega
    refine ⟨s', p, hrun, hheld, hnext, hal, ⟨fun _ => hroom, fun _ => hp0⟩, ?_⟩
    rw [hlist] at hinv ⊢
    refine ⟨hinv, h.user, ?_, List.pairwise_cons.mpr ⟨?_, h.apart⟩⟩
    · intro a hm
      rcases List.mem_cons.mp hm with rfl | hm
      · rw [hs, hp]
        exact front_disjoint_advance
          ⟨s.buffer.base + pad s.buffer.base alignment,
            s.buffer.size - pad s.buffer.base alignment⟩ bytes
      · exact hold a hm
    · intro a hm
      exact ((h.window a hm).mono (.refl _) hin).symm
  · have hp0 : p = 0 := by
      have := allocFromBuffer_full hroom
      rwa [hrun] at this
    have hlist : liveAfter bytes alignment made (some p) = made := if_pos hp0
    refine ⟨s', p, hrun, hheld, hnext, hal,
      ⟨fun hne => absurd hp0 hne, fun hr => absurd hr hroom⟩, ?_⟩
    rw [hlist] at hinv ⊢
    exact ⟨hinv, h.user, hold, h.apart⟩

/-- What was made lies apart from a block that upstream grants. -/
theorem Inv.made_apart (h : Inv user made s) {r : Region} (hu : user.Disjoint r)
    (hd : ∀ g ∈ s.held, (region g).Disjoint r) {a : Grant}
    (ha : a ∈ made) : (region a).Disjoint r := by
  rcases (h.live a ha).2 with hi | ⟨g, hg, hi⟩
  · exact hu.mono hi (.refl _)
  · exact (hd g hg).mono (Inside.trans hi (payload_inside g)) (.refl _)

theorem Spent.request_spec (h : Spent user made s)
    (hf : sizeofBlockInfo + s.nextBufferBytes < addressSpace)
    (ha : Answers user s.held up ((sizeofBlockInfo + s.nextBufferBytes) % addressSpace)) :
    (up ((sizeofBlockInfo + s.nextBufferBytes) % addressSpace) maxAlign = none ∧
      s.requestFromUpstream up = some (s, false)) ∨
      ∃ p s', up ((sizeofBlockInfo + s.nextBufferBytes) % addressSpace) maxAlign = some p ∧
      s.requestFromUpstream up = some (s', true) ∧
        s'.buffer = ⟨p, s.nextBufferBytes⟩ ∧ Spent user made s' := by
  cases hup : up ((sizeofBlockInfo + s.nextBufferBytes) % addressSpace) maxAlign with
  | none =>
    refine .inl ⟨rfl, ?_⟩
    simp only [requestFromUpstream, hup]
  | some p =>
    obtain ⟨-, hal, -, hu, hd⟩ := ha p hup
    rcases h.inv.request_spec hf ha with hreq | ⟨s', hreq, hinv⟩
    · simp [requestFromUpstream, hup, guard, hal] at hreq
    have hbuf : s'.buffer = ⟨p, s.nextBufferBytes⟩ := by
      simp [requestFromUpstream, hup, guard, hal] at hreq
      rw [← hreq]
    refine .inr ⟨p, s', rfl, hreq, hbuf, hinv, h.user, ?_, h.apart⟩
    intro a hm
    rw [hbuf]
    refine (h.inv.made_apart hu hd hm).mono (.refl _) ⟨Nat.le_refl _, ?_⟩
    rw [Nat.mod_eq_of_lt hf]
    simp only [Region.stop]
    omega

/-- `do_allocate` returns a pointer exactly when the window or the block that upstream grants has
room. -/
theorem Spent.doAllocate_spec (h : Spent user made s) (hal : 0 < alignment)
    (hf : ¬ HasRoom s.buffer bytes alignment → sizeofBlockInfo + s.asked bytes < addressSpace)
    (ha : ¬ HasRoom s.buffer bytes alignment →
      Answers user s.held up ((sizeofBlockInfo + s.asked bytes) % addressSpace)) :
    ∃ s' ret, s.doAllocate up bytes alignment = some (s', ret) ∧ ret.getD 0 % alignment = 0 ∧
      Spent user (liveAfter bytes alignment made ret) s' ∧
      (ret.getD 0 ≠ 0 ↔ HasRoom s.buffer bytes alignment ∨
        ∃ p, up ((sizeofBlockInfo + s.asked bytes) % addressSpace) maxAlign = some p ∧
        HasRoom ⟨p, s.asked bytes⟩ bytes alignment) := by
  obtain ⟨s₁, p₁, hrun₁, hheld, hnext, hm₁, hp₁, hi₁⟩ := h.allocFromBuffer_spec bytes hal
  by_cases hroom : HasRoom s.buffer bytes alignment
  · have hne := hp₁.mpr hroom
    refine ⟨s₁, some p₁, ?_, hm₁, hi₁, ⟨fun _ => .inl hroom, fun _ => hne⟩⟩
    simp only [doAllocate, hrun₁, if_pos hne]
  have hp0 : p₁ = 0 := by
    by_contra hne
    exact hroom (hp₁.mp hne)
  subst hp0
  have hi₂ : Spent user made { s₁ with nextBufferBytes := s.asked bytes } :=
    ⟨hi₁.inv.setNext (growTo_lt bytes h.inv.next), h.user, hi₁.window, hi₁.apart⟩
  have hask := ha hroom
  rw [← hheld] at hask
  have hgrow : growTo s₁.nextBufferBytes bytes = s.asked bytes := by rw [hnext, asked]
  rcases hi₂.request_spec (hf hroom) hask with ⟨hup, hreq⟩ | ⟨p, s₃, hup, hreq, hbuf, hi₃⟩
  · dsimp only at hup
    refine ⟨_, none, ?_, Nat.zero_mod _, hi₂, ?_⟩
    · simp only [doAllocate, hrun₁, hgrow]
      simp [hreq]
    · simp [hup, hroom]
  · dsimp only at hup hbuf
    obtain ⟨s₄, p₄, hrun₄, -, -, hm₄, hp₄, hi₄⟩ := hi₃.allocFromBuffer_spec bytes hal
    rw [hbuf] at hp₄
    refine ⟨s₄, some p₄, ?_, hm₄, hi₄, ?_⟩
    · simp only [doAllocate, hrun₁, hgrow]
      simp [hreq, hrun₄]
    · simp [hup, hroom, hp₄]

/-- When an allocation is served. -/
theorem Spent.serves_iff (h : Spent user made s) (hal : 0 < alignment)
    (hf : ¬ HasRoom s.buffer bytes alignment → sizeofBlockInfo + s.asked bytes < addressSpace)
    (ha : ¬ HasRoom s.buffer bytes alignment →
      Answers user s.held up ((sizeofBlockInfo + s.asked bytes) % addressSpace)) :
    Serves user made s up bytes alignment ↔ HasRoom s.buffer bytes alignment ∨
      ∃ p, up ((sizeofBlockInfo + s.asked bytes) % addressSpace) maxAlign = some p ∧
      HasRoom ⟨p, s.asked bytes⟩ bytes alignment := by
  obtain ⟨s', ret, hrun, hm, hi, hiff⟩ := h.doAllocate_spec hal hf ha
  rw [← hiff]
  constructor
  · intro ⟨s'', p, hrun', hp, _⟩
    obtain ⟨-, rfl⟩ := Prod.mk.inj (Option.some.inj (hrun.symm.trans hrun'))
    exact hp
  · intro hne
    cases ret with
    | none => exact absurd rfl hne
    | some p =>
      have hp : p ≠ 0 := hne
      rw [liveAfter, if_neg hp] at hi
      refine ⟨s', p, hrun, hp, hm, ?_, (List.pairwise_cons.mp hi.apart).1⟩
      rcases (hi.inv.live _ List.mem_cons_self).2 with hin | ⟨g, hg, hin⟩
      · exact ⟨user, List.mem_cons_self, hin⟩
      · exact ⟨payload g, List.mem_cons_of_mem _ (List.mem_map_of_mem hg), hin⟩

/-! ## Runs -/

theorem Spent.write (h : Spent user made s) {a : Grant} {x : Nat} (v : UInt8) (ha : a ∈ made)
    (hx : (region a).Contains x) :
    Spent user made { s with mem := Function.update s.mem x v } :=
  ⟨h.inv.write v ha hx, h.user, h.window, h.apart⟩

/-- `allocate` checks what `do_allocate` returned; the check passes. -/
theorem Spent.allocate_spec (h : Spent user made s) (hal : 0 < alignment)
    (hf : ¬ HasRoom s.buffer bytes alignment → sizeofBlockInfo + s.asked bytes < addressSpace)
    (ha : ¬ HasRoom s.buffer bytes alignment →
      Answers user s.held up ((sizeofBlockInfo + s.asked bytes) % addressSpace)) :
    ∃ s' ret, s.allocate up bytes alignment = some (s', ret) ∧
    Spent user (liveAfter bytes alignment made ret) s' := by
  obtain ⟨s', ret, hrun, hm, hi, -⟩ := h.doAllocate_spec hal hf ha
  exact ⟨s', ret, by simp [allocate, hrun, guard, hm], hi⟩

/-- The window has no room exactly when `alloc_from_buffer` returns null. -/
theorem Spent.hasRoom_iff (h : Spent user made s) (hal : 0 < alignment) :
    ¬ HasRoom s.buffer bytes alignment ↔ (s.allocFromBuffer bytes alignment).2 = 0 := by
  obtain ⟨s', p, hrun, -, -, -, hp, -⟩ := h.allocFromBuffer_spec bytes hal
  rw [← hp, hrun, ne_eq, not_not]

end

theorem liveAfter_append (bytes alignment : Nat) (live : List Grant) (ret : Option Nat) :
    liveAfter bytes alignment [] ret ++ live = liveAfter bytes alignment live ret := by
  cases ret with
  | none => rfl
  | some p =>
    simp only [liveAfter]
    split <;> rfl

structure LoggedInv (t : Logged) : Prop where
  inv : t.world.Inv
  spent : ∀ s, t.world.res = some s → Spent t.world.user t.made s
  live : ∀ a ∈ t.world.live, a ∈ t.made
  none : t.world.res = none → t.made = []

theorem LoggedInv.step {t t' : Logged} {op : Op} (h : LoggedInv t) (hs : LoggedStep t op t') :
    LoggedInv t' := by
  obtain ⟨⟨hfits, hallowed, hexec⟩, hop, hmade⟩ := hs
  obtain ⟨w', hexec', hclean, -⟩ := h.inv.exec_spec hallowed hfits
  obtain rfl := Option.some.inj (hexec.symm.trans hexec')
  obtain ⟨w', made'⟩ := t'
  dsimp only at hexec hclean hmade
  have hinv : w'.Inv := hclean (by
    cases op with
    | release give => exact absurd trivial hop
    | _ => trivial)
  cases op with
  | ofBuffer m buffer size =>
    obtain ⟨hres, hpos, -⟩ := hallowed
    have hw : w' = ⟨some ⟨⟨buffer, size⟩, 1024, ⟨0, 0, 0⟩, m, []⟩, ⟨buffer, size⟩, []⟩ := by
      simpa [World.exec, ofBuffer, guard, Nat.ne_of_gt hpos] using hexec.symm
    have hm : made' = [] := by simp [hmade, madeBy, h.none hres]
    subst hm
    subst hw
    exact ⟨hinv, fun s hs => ⟨hinv s hs, .inl hpos, by simp, .nil⟩, by simp, by simp⟩
  | ofSize m up initialBuffer =>
    obtain ⟨hres, -⟩ := hallowed
    have hm : made' = [] := by simp [hmade, madeBy, h.none hres]
    subst hm
    simp only [World.exec, Option.bind_eq_bind, Option.bind_eq_some_iff, Option.pure_def,
      Option.some.injEq] at hexec
    obtain ⟨⟨s, ok⟩, -, hw⟩ := hexec
    cases ok with
    | true =>
      simp only [if_true] at hw
      subst hw
      exact ⟨hinv, fun s hs => ⟨hinv s hs, .inr rfl, by simp, .nil⟩, by simp, by simp⟩
    | false =>
      simp only [Bool.false_eq_true, if_false] at hw
      subst hw
      exact ⟨hinv, fun s hs => by simp [hres] at hs, by simpa [h.none hres] using h.live,
        fun _ => rfl⟩
  | allocate up bytes alignment =>
    obtain ⟨s, hres, hal, -, hans⟩ := hallowed
    have hsp := h.spent s hres
    obtain ⟨s', ret, hrun, hi⟩ :=
      hsp.allocate_spec hal (fun hn => hfits s hres ((hsp.hasRoom_iff hal).mp hn))
      (fun hn => hans ((hsp.hasRoom_iff hal).mp hn))
    have hm : made' = liveAfter bytes alignment t.made ret := by
      rw [hmade, ← liveAfter_append]
      simp [madeBy, hres, hrun]
    have hw :
        w' = { t.world with
            res := some s', live := liveAfter bytes alignment t.world.live ret } := by
      simpa [World.exec, hres, hrun] using hexec.symm
    subst hm
    subst hw
    refine ⟨hinv, fun s'' hs => ?_, ?_, by simp⟩
    · obtain rfl := Option.some.inj hs
      exact hi
    · intro a ha
      dsimp only at ha ⊢
      rw [← liveAfter_append] at ha ⊢
      rcases List.mem_append.mp ha with ha | ha
      · exact List.mem_append_left _ ha
      · exact List.mem_append_right _ (h.live a ha)
  | deallocate p bytes alignment =>
    obtain ⟨hres, -⟩ := hallowed
    obtain ⟨s, hres⟩ := Option.isSome_iff_exists.mp hres
    simp only [World.exec, deallocate, hres, Option.bind_eq_bind, Option.bind_some,
      Option.bind_eq_some_iff, Option.pure_def, Option.some.injEq] at hexec
    obtain ⟨s', ⟨_, -, rfl⟩, rfl⟩ := hexec
    have hm : made' = t.made := by simp [hmade, madeBy]
    subst hm
    refine ⟨hinv, fun s'' hs => ?_, fun a ha => h.live a (List.mem_of_mem_erase ha), by simp⟩
    obtain rfl := Option.some.inj hs
    exact h.spent s hres
  | write a v =>
    obtain ⟨hres, g, hg, hx⟩ := hallowed
    obtain ⟨s, hres⟩ := Option.isSome_iff_exists.mp hres
    simp only [World.exec, hres, Option.bind_eq_bind, Option.bind_some, Option.pure_def,
      Option.some.injEq] at hexec
    have hm : made' = t.made := by simp [hmade, madeBy]
    subst hm
    subst hexec
    refine ⟨hinv, fun s'' hs => ?_, h.live, by simp⟩
    obtain rfl := Option.some.inj hs
    exact (h.spent s hres).write v (h.live g hg) hx
  | release give => exact absurd trivial hop
  | destroy give => exact absurd trivial hop

theorem LoggedInv.run {ops : List Op} {t : Logged} (h : Run LoggedStep Logged.start ops t) :
    LoggedInv t := by
  refine h.invariant ⟨start_inv, by simp [Logged.start, World.start],
    by simp [Logged.start, World.start], fun _ => rfl⟩ ?_
  intro t op t' ht hs
  exact ht.step hs

/-- **When an allocation is served.** In every state before a `release`, with a request that
upstream grants at `p`, `do_allocate` returns aligned memory of one buffer that was not handed out
before, if and only if the window or the granted block has room for the padding and the bytes. -/
theorem doAllocate_serves_iff {ops : List Op} {t : Logged} (h : Run LoggedStep Logged.start ops t)
    {s : Monotonic} (hres : t.world.res = some s) {up : Upstream} {bytes alignment p : Nat}
    (hallowed : (Op.allocate up bytes alignment).Allowed t.world)
    (hfits : (Op.allocate up bytes alignment).Fits t.world)
    (hgrant : ¬ HasRoom s.buffer bytes alignment →
      up ((sizeofBlockInfo + s.asked bytes) % addressSpace) maxAlign = some p) :
    Serves t.world.user t.made s up bytes alignment ↔
      HasRoom s.buffer bytes alignment ∨ HasRoom ⟨p, s.asked bytes⟩ bytes alignment := by
  have hsp := (LoggedInv.run h).spent s hres
  obtain ⟨s', hres', hal, -, hans⟩ := hallowed
  obtain rfl := Option.some.inj (hres.symm.trans hres')
  rw [hsp.serves_iff hal (fun hn => hfits s hres ((hsp.hasRoom_iff hal).mp hn))
    (fun hn => hans ((hsp.hasRoom_iff hal).mp hn))]
  by_cases hroom : HasRoom s.buffer bytes alignment
  · simp [hroom]
  · simp [hroom, hgrant hroom]

/-- Up to the alignment of a block there is no padding: a new block has room unless the rounding of
`bytes` wraps or its size is zero. -/
theorem hasRoom_asked_iff {s : Monotonic} {bytes alignment p : Nat} (ha : alignment ∣ maxAlign)
    (hp : p % maxAlign = 0) (hb : bytes < addressSpace) :
    HasRoom ⟨p, s.asked bytes⟩ bytes alignment ↔
    (s.nextBufferBytes < bytes → bytes + sizeofMaxAlign ≤ addressSpace) ∧ 0 < s.asked bytes := by
  have hpad : pad p alignment = 0 := by
    have hmod : p % alignment = 0 :=
      Nat.mod_eq_zero_of_dvd (Nat.dvd_trans ha (Nat.dvd_of_mod_eq_zero hp))
    rw [pad, hmod, Nat.sub_zero, Nat.mod_self]
  rw [HasRoom, hpad, Nat.zero_add]
  dsimp only
  unfold asked growTo sizeofMaxAlign
  split
  · unfold addressSpace at *
    omega
  · omega

/-- A new resource on a buffer of 64 bytes. -/
def fresh64 : Logged := ⟨⟨some ⟨⟨4096, 64⟩, 1024, ⟨0, 0, 0⟩, fun _ => 0, []⟩, ⟨4096, 64⟩, []⟩, []⟩

theorem fresh64_run : Run LoggedStep Logged.start [.ofBuffer (fun _ => 0) 4096 64] fresh64 :=
  Run.single ⟨⟨trivial, ⟨rfl, by decide, by decide⟩, rfl⟩, id, rfl⟩

theorem fresh64_allowed (p bytes alignment : Nat) (ha : 0 < alignment) (hb : bytes ≤ 1024)
    (hp : p % maxAlign = 0) (hlo : 4160 ≤ p) (hhi : p ≤ 10000) :
    (Op.allocate (fun _ _ => some p) bytes alignment).Allowed fresh64.world := by
  have hspace : (10000 : Nat) + 1048 < addressSpace := by decide
  have hasked : asked ⟨⟨4096, 64⟩, 1024, ⟨0, 0, 0⟩, fun _ => 0, []⟩ bytes = 1024 :=
    if_neg (show ¬ 1024 < bytes by omega)
  have hsize : (sizeofBlockInfo + 1024) % addressSpace = 1048 := by decide
  refine ⟨_, rfl, ha, by omega, fun _ => ?_⟩
  rw [hasked, hsize]
  intro q hq
  obtain rfl := Option.some.inj hq
  have hd : Region.Disjoint ⟨4096, 64⟩ ⟨p, 1048⟩ := .inl hlo
  exact ⟨by omega, hp, by omega, hd, by simp⟩

theorem fresh64_fits {up : Upstream} {bytes alignment : Nat} (hb : bytes ≤ 1024) :
    (Op.allocate up bytes alignment).Fits fresh64.world := by
  intro s hs _
  obtain rfl := Option.some.inj hs
  have hasked : asked ⟨⟨4096, 64⟩, 1024, ⟨0, 0, 0⟩, fun _ => 0, []⟩ bytes = 1024 :=
    if_neg (show ¬ 1024 < bytes by omega)
  rw [hasked]
  decide

/-- 100 bytes aligned to 16 come from a new block of 1024 bytes. -/
theorem hundred_bytes_served :
    Serves ⟨4096, 64⟩ [] ⟨⟨4096, 64⟩, 1024, ⟨0, 0, 0⟩, fun _ => 0, []⟩
      (fun _ _ => some 8192) 100 16 :=
  (doAllocate_serves_iff fresh64_run rfl
    (fresh64_allowed 8192 100 16 (by decide) (by decide) rfl (by decide) (by decide))
      (fresh64_fits (by decide))
    fun _ => rfl).mpr (.inr ((hasRoom_asked_iff ⟨1, rfl⟩ rfl (by decide)).mpr
      ⟨fun _ => by decide, by decide⟩))

/-- 1024 bytes aligned to 64 do not: the block of 1024 bytes that upstream grants starts 48 bytes
before a multiple of 64. -/
theorem aligned_to_64_not_served :
    Run LoggedStep Logged.start [.ofBuffer (fun _ => 0) 4096 64] fresh64 ∧
    (Op.allocate (fun _ _ => some 8208) 1024 64).Allowed fresh64.world ∧
    ¬ Serves ⟨4096, 64⟩ [] ⟨⟨4096, 64⟩, 1024, ⟨0, 0, 0⟩, fun _ => 0, []⟩
      (fun _ _ => some 8208) 1024 64 := by
  have hallowed := fresh64_allowed 8208 1024 64 (by decide) (by decide) rfl (by decide) (by decide)
  refine ⟨fresh64_run, hallowed, ?_⟩
  have hsp := (LoggedInv.run fresh64_run).spent _ rfl
  obtain ⟨s, hs, hal, -, hans⟩ := hallowed
  obtain rfl := Option.some.inj hs
  have hroom : ¬ HasRoom ⟨4096, 64⟩ 1024 64 := by decide
  intro hserves
  rcases (hsp.serves_iff hal (fun _ => by decide) fun hn =>
    hans ((hsp.hasRoom_iff hal).mp hn)).mp hserves with hr | ⟨p, hp, hr⟩
  · exact hroom hr
  · obtain rfl := Option.some.inj hp
    exact absurd hr (by decide)

end Gpcl.Pmr.Monotonic
