import Gpcl.Getopt.Turns
import Mathlib.Logic.Relation

/-! # Calls until the end

By the turns of its calls a command line is walked from place to place. The calls come to an end
unless the walk comes to a long option that is not left, and read nothing behind the words unless it
comes to an argument that is missing. -/
namespace Gpcl.Getopt

variable {F : Type}

/-- From place to place while no call returns -1. -/
def Passed (opts : List (Opt F)) (p q : Place) : Prop :=
  ∃ i, turn opts p = .passes i q ∧ reported opts i ≠ -1

/-- From place to place by any call. -/
def Left (opts : List (Opt F)) (p q : Place) : Prop :=
  turn opts p = .ends q ∨ ∃ i, turn opts p = .passes i q

/-- A long option that is not left, and is not reported as -1. -/
def Stuck (opts : List (Opt F)) (p : Place) : Prop :=
  ∃ i, turn opts p = .stays i ∧ reported opts i ≠ -1

/-- The place behind the name of the program. -/
def firstPlace (argv : List (Option Word)) : Place := ⟨[], argv.tail⟩

section
variable {argv : List (Option Word)} {opts : List (Opt F)} {s : State F} {p q : Place}

theorem sim_start {flags : F → BitVec 32} (h : start argv opts flags = some s) :
    Sim argv s (firstPlace argv) := by
  rw [start] at h
  split at h
  · cases h
    exact .between (.inl rfl) List.drop_one
  · cases h

variable [DecidableEq F]

theorem calls_cons {n : Nat} {r : BitVec 32} {s₁ s₂ : State F} {reports : List (Report F)}
    (hcall : call argv opts s = some (r, s₁)) (h : calls argv opts n s₁ = some (reports, s₂)) :
    calls argv opts (n + 1) s = some (⟨r, s₁.opt, s₁.optarg, s₁.flags⟩ :: reports, s₂) := by
  rw [calls, hcall, Option.bind_some, h]
  rfl

theorem calls_succ {n : Nat} {s₂ : State F} {reports : List (Report F)}
    (h : calls argv opts (n + 1) s = some (reports, s₂)) :
    ∃ r s₁ rest, call argv opts s = some (r, s₁) ∧ calls argv opts n s₁ = some (rest, s₂) ∧
      reports = ⟨r, s₁.opt, s₁.optarg, s₁.flags⟩ :: rest := by
  rw [calls] at h
  obtain ⟨⟨r, s₁⟩, hcall, h⟩ := Option.bind_eq_some_iff.mp h
  obtain ⟨⟨rest, s₃⟩, hrest, heq⟩ := Option.map_eq_some_iff.mp h
  cases heq
  exact ⟨r, s₁, rest, hcall, hrest, rfl⟩

/-! ## The end of the options -/

/-- By induction on the calls: the walk comes no further. -/
theorem Sim.never_ends (hw : ∀ w, some w ∈ argv → nul ∉ w)
    (hq : Stuck opts q ∨ turn opts q = .misses) {n : Nat} :
    ∀ {s : State F} {p : Place} {reports : List (Report F)} {s₂ : State F}, Sim argv s p →
    Relation.ReflTransGen (Passed opts) p q →
      calls argv opts n s = some (reports, s₂) → ∀ r ∈ reports, r.returned ≠ -1 := by
  induction n with
  | zero =>
    intro s p reports s₂ _ _ hcalls r hr
    cases hcalls
    exact absurd hr List.not_mem_nil
  | succ n ih =>
    intro s p reports s₂ h hpq hcalls
    obtain ⟨r, s₁, rest, hcall, hrest, rfl⟩ := calls_succ hcalls
    have hmakes := h.call opts hw
    rw [hcall] at hmakes
    have hnext {i : Option Nat} {p' : Place} (hne : reported opts i ≠ -1)
      (hpq : Relation.ReflTransGen (Passed opts) p' q)
        (hm : ∃ s', some (r, s₁) = some (reported opts i, s') ∧ Sim argv s' p') :
        ∀ x ∈ (⟨r, s₁.opt, s₁.optarg, s₁.flags⟩ :: rest : List (Report F)), x.returned ≠ -1 := by
      obtain ⟨s', heq, hsim⟩ := hm
      cases heq
      intro x hx
      rcases List.mem_cons.mp hx with rfl | hx
      · exact hne
      · exact ih hsim hpq hrest x hx
    obtain rfl | ⟨c, ⟨i, hturn, hne⟩, hcq⟩ := hpq.cases_head
    · rcases hq with ⟨i, hturn, hne⟩ | hturn
      · rw [hturn] at hmakes
        exact hnext hne .refl hmakes
      · rw [hturn] at hmakes
        cases hmakes
    · rw [hturn] at hmakes
      exact hnext hne hcq hmakes

/-- By induction on what is left of the command line. -/
theorem Sim.ends (hw : ∀ w, some w ∈ argv → nul ∉ w) :
    ∀ {m : Nat} {s : State F} {p : Place}, p.size = m → Sim argv s p →
    (∀ q, Relation.ReflTransGen (Passed opts) p q → ¬ Stuck opts q ∧ turn opts q ≠ .misses) →
      ∃ n reports s₂, calls argv opts n s = some (reports, s₂) ∧
      ∃ r ∈ reports, r.returned = -1 := by
  intro m
  induction m using Nat.strongRecOn with
  | ind m ih =>
    intro s p hsize h hgood
    have hmakes := h.call opts hw
    have hone {r : BitVec 32} {s₁ : State F} (hcall : Getopt.call argv opts s = some (r, s₁))
      (hr : r = -1) :
        ∃ n reports s₂, calls argv opts n s = some (reports, s₂) ∧ ∃ r ∈ reports, r.returned = -1 :=
      ⟨1, _, s₁, calls_cons hcall rfl, _, List.mem_cons_self, hr⟩
    obtain ⟨hstuck, hmiss⟩ := hgood p .refl
    cases hturn : turn opts p with
    | ends q =>
      rw [hturn] at hmakes
      obtain ⟨s₁, hcall, -⟩ := hmakes
      exact hone hcall rfl
    | misses => exact absurd hturn hmiss
    | stays i =>
      rw [hturn] at hmakes
      obtain ⟨s₁, hcall, -⟩ := hmakes
      exact hone hcall (by by_contra hne; exact hstuck ⟨i, hturn, hne⟩)
    | passes i q =>
      rw [hturn] at hmakes
      obtain ⟨s₁, hcall, hsim⟩ := hmakes
      by_cases hr : reported opts i = -1
      · exact hone hcall hr
      · obtain ⟨n, reports, s₂, hcalls, r, hmem, hreturned⟩ :=
          ih q.size (hsize ▸ turn_passes_size hturn) rfl hsim
          fun q' hq' => hgood q' (.head ⟨i, hturn, hr⟩ hq')
        exact ⟨n + 1, _, s₂, calls_cons hcall hcalls, r, List.mem_cons_of_mem _ hmem, hreturned⟩

/-! ## Reads behind the words -/

theorem Sim.left (h : Sim argv s p) (hw : ∀ w, some w ∈ argv → nul ∉ w) (hleft : Left opts p q) :
    ∃ r s₁, Getopt.call argv opts s = some (r, s₁) ∧ Sim argv s₁ q := by
  have hmakes := h.call opts hw
  rcases hleft with hturn | ⟨i, hturn⟩
  · rw [hturn] at hmakes
    obtain ⟨s₁, hcall, hsim⟩ := hmakes
    exact ⟨_, s₁, hcall, hsim⟩
  · rw [hturn] at hmakes
    obtain ⟨s₁, hcall, hsim⟩ := hmakes
    exact ⟨_, s₁, hcall, hsim⟩

/-- A call that does not miss an argument returns, at a place that the walk comes to. -/
theorem Sim.returns (h : Sim argv s p) (hw : ∀ w, some w ∈ argv → nul ∉ w)
    (hmiss : turn opts p ≠ .misses) :
    ∃ r s₁ q, Getopt.call argv opts s = some (r, s₁) ∧ Sim argv s₁ q ∧
    Relation.ReflTransGen (Left opts) p q := by
  have hleft {q : Place} (hq : Left opts p q) :
      ∃ r s₁ q, Getopt.call argv opts s = some (r, s₁) ∧ Sim argv s₁ q ∧
        Relation.ReflTransGen (Left opts) p q := by
    obtain ⟨r, s₁, hcall, hsim⟩ := h.left hw hq
    exact ⟨r, s₁, q, hcall, hsim, .single hq⟩
  cases hturn : turn opts p with
  | ends q => exact hleft (.inl hturn)
  | misses => exact absurd hturn hmiss
  | stays i =>
    have hmakes := h.call opts hw
    rw [hturn] at hmakes
    obtain ⟨s₁, hcall, hsim⟩ := hmakes
    exact ⟨_, s₁, p, hcall, hsim, .refl⟩
  | passes i q => exact hleft (.inr ⟨i, hturn⟩)

/-- By induction on the walk to the missing argument. -/
theorem Sim.reads_behind (hw : ∀ w, some w ∈ argv → nul ∉ w)
    (hpq : Relation.ReflTransGen (Left opts) p q) (hq : turn opts q = .misses) :
    ∀ {s : State F}, Sim argv s p → ∃ n, calls argv opts n s = none := by
  induction hpq using Relation.ReflTransGen.head_induction_on with
  | refl =>
    intro s h
    have hmakes := h.call opts hw
    rw [hq] at hmakes
    exact ⟨1, by rw [calls, show Getopt.call argv opts s = none from hmakes]; rfl⟩
  | head hleft _ ih =>
    intro s h
    obtain ⟨r, s₁, hcall, hsim⟩ := h.left hw hleft
    obtain ⟨n, hn⟩ := ih hsim
    exact ⟨n + 1, by rw [calls, hcall, Option.bind_some, hn]; rfl⟩

theorem Sim.reads_inside (hw : ∀ w, some w ∈ argv → nul ∉ w) (n : Nat) :
    ∀ {s : State F} {p : Place}, Sim argv s p →
    (∀ q, Relation.ReflTransGen (Left opts) p q → turn opts q ≠ .misses) →
    calls argv opts n s ≠ none := by
  induction n with
  | zero => intro s p _ _ h; cases h
  | succ n ih =>
    intro s p h hgood
    obtain ⟨r, s₁, q, hcall, hsim, hpq⟩ := h.returns hw (hgood p .refl)
    obtain ⟨⟨reports, s₂⟩, hcalls⟩ :=
      Option.ne_none_iff_exists'.mp (ih hsim fun q' hq' => hgood q' (hpq.trans hq'))
    rw [calls_cons hcall hcalls]
    exact Option.some_ne_none _

/-- Some call returns -1 if the walk comes to no long option that it does not leave and to no
missing argument. -/
theorem calls_end_iff (argv : List (Option Word)) (opts : List (Opt F)) (flags : F → BitVec 32)
    (s : State F) (hw : ∀ w, some w ∈ argv → nul ∉ w) (h : start argv opts flags = some s) :
    (∃ n reports s', calls argv opts n s = some (reports, s') ∧ ∃ r ∈ reports, r.returned = -1) ↔
      ∀ q, Relation.ReflTransGen (Passed opts) (firstPlace argv) q → ¬ Stuck opts q ∧
      turn opts q ≠ .misses := by
  have hsim := sim_start h
  constructor
  · rintro ⟨n, reports, s', hcalls, r, hr, hreturned⟩ q hq
    refine ⟨fun hstuck => ?_, fun hmiss => ?_⟩
    · exact hsim.never_ends hw (.inl hstuck) hq hcalls r hr hreturned
    · exact hsim.never_ends hw (.inr hmiss) hq hcalls r hr hreturned
  · exact hsim.ends hw rfl

theorem free_of_nul {v w x : Word} (hv : nul ∉ v) (hw : nul ∉ w) (hx : some x ∈ [some v, some w]) :
    nul ∉ x := by
  rcases List.mem_cons.mp hx with he | hx
  · exact Option.some.inj he ▸ hv
  · exact Option.some.inj (List.mem_singleton.mp hx) ▸ hw

/-- What is true where `prog -h` starts and behind its option is true wherever its walk comes. -/
theorem help_walk {R : Place → Place → Prop} {P : Place → Prop}
    (hstart : P (firstPlace [some ['p'], some ['-', 'h']])) (hend : P ⟨[], []⟩)
    (hsource : ∀ q, R (firstPlace [some ['p'], some ['-', 'h']]) q → q = ⟨[], []⟩)
    (htarget : ∀ q, R ⟨[], []⟩ q → q = ⟨[], []⟩) :
    ∀ q, Relation.ReflTransGen R (firstPlace [some ['p'], some ['-', 'h']]) q → P q := by
  have hboth : ∀ q, Relation.ReflTransGen R (firstPlace [some ['p'], some ['-', 'h']]) q →
      q = firstPlace [some ['p'], some ['-', 'h']] ∨ q = ⟨[], []⟩ := by
    intro q hq
    induction hq with
    | refl => exact .inl rfl
    | tail _ hstep ih =>
      rcases ih with rfl | rfl
      · exact .inr (hsource _ hstep)
      · exact .inr (htarget _ hstep)
  intro q hq
  rcases hboth q hq with rfl | rfl
  · exact hstart
  · exact hend

theorem calls_end_help : ∃ n reports s', calls [some ['p'], some ['-', 'h']] helpAndOut.opts n
    ⟨0, 0, none, none, fun _ => 0⟩ = some (reports, s') ∧ ∃ r ∈ reports, r.returned = -1 := by
  refine (calls_end_iff [some ['p'], some ['-', 'h']] helpAndOut.opts (fun _ => 0) _
    (fun _ => free_of_nul (by decide) (by decide)) rfl).mpr ?_
  refine help_walk ⟨?_, Turn.noConfusion⟩ ⟨?_, Turn.noConfusion⟩ ?_ ?_
  · rintro ⟨i, hturn, -⟩
    cases hturn
  · rintro ⟨i, hturn, -⟩
    cases hturn
  · rintro q ⟨i, hturn, -⟩
    cases hturn
    rfl
  · rintro q ⟨i, hturn, -⟩
    cases hturn

/-- `prog --foo`, which is not in the table. -/
theorem unknown_never_ends :
    ¬ ∃ n reports s', calls [some ['p'], some ['-', '-', 'f', 'o', 'o']] helpAndOut.opts n
    ⟨0, 0, none, none, fun _ => 0⟩ = some (reports, s') ∧ ∃ r ∈ reports, r.returned = -1 := by
  rintro ⟨n, reports, s', hcalls, r, hr, hreturned⟩
  have hsim :
      Sim [some ['p'], some ['-', '-', 'f', 'o', 'o']]
        (⟨0, 0, none, none, fun _ => 0⟩ : State Unit) _ :=
    sim_start (show start _ helpAndOut.opts _ = some _ from rfl)
  have hstuck : Stuck helpAndOut.opts (firstPlace [some ['p'], some ['-', '-', 'f', 'o', 'o']]) :=
    ⟨none, rfl, by decide⟩
  exact hsim.never_ends (fun _ => free_of_nul (by decide) (by decide))
    (.inl hstuck) .refl hcalls r hr hreturned

/-- No call reads outside the words if the walk comes to no missing argument. -/
theorem calls_inside_iff (argv : List (Option Word)) (opts : List (Opt F)) (flags : F → BitVec 32)
    (s : State F) (hw : ∀ w, some w ∈ argv → nul ∉ w) (h : start argv opts flags = some s) :
    (∀ n, calls argv opts n s ≠ none) ↔ ∀ q, Relation.ReflTransGen (Left opts) (firstPlace argv) q →
    turn opts q ≠ .misses := by
  have hsim := sim_start h
  constructor
  · intro hcalls q hq hmiss
    obtain ⟨n, hn⟩ := hsim.reads_behind hw hq hmiss
    exact hcalls n hn
  · exact fun hgood n => hsim.reads_inside hw n hgood

theorem calls_inside_help : ¬ ∃ n, calls [some ['p'], some ['-', 'h']] helpAndOut.opts n
    ⟨0, 0, none, none, fun _ => 0⟩ = none := by
  rintro ⟨n, hn⟩
  refine (calls_inside_iff [some ['p'], some ['-', 'h']] helpAndOut.opts (fun _ => 0) _
    (fun _ => free_of_nul (by decide) (by decide)) rfl).mpr ?_ n hn
  refine help_walk Turn.noConfusion Turn.noConfusion ?_ ?_
  · rintro q (hturn | ⟨i, hturn⟩)
    · cases hturn
    · cases hturn
      rfl
  · rintro q (hturn | ⟨i, hturn⟩)
    · cases hturn
      rfl
    · cases hturn

/-- `prog --out`, whose argument is missing. -/
theorem lacking_reads_behind :
    ¬ ∀ n, calls [some ['p'], some ['-', '-', 'o', 'u', 't']] helpAndOut.opts n
    ⟨0, 0, none, none, fun _ => 0⟩ ≠ none := by
  intro hcalls
  have hsim :
      Sim [some ['p'], some ['-', '-', 'o', 'u', 't']]
        (⟨0, 0, none, none, fun _ => 0⟩ : State Unit) _ :=
    sim_start (show start _ helpAndOut.opts _ = some _ from rfl)
  have hmiss :
      turn helpAndOut.opts (firstPlace [some ['p'], some ['-', '-', 'o', 'u', 't']]) =
        .misses := rfl
  obtain ⟨n, hn⟩ := hsim.reads_behind (fun _ => free_of_nul (by decide) (by decide)) .refl hmiss
  exact hcalls n hn

end

end Gpcl.Getopt
