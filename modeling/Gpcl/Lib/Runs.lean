import Mathlib.Data.List.Induction
import Mathlib.Tactic.Common

/-! # Finite runs of a labelled transition relation

`Run step s as t`: from `s` the actions `as`, in order, lead to `t`. Runs grow at
their end, so an invariant is an induction with one case for a step. -/
namespace Gpcl.Lib.Runs

variable {σ α : Type*} {step : σ → α → σ → Prop}

inductive Run (step : σ → α → σ → Prop) (s : σ) : List α → σ → Prop
  | nil : Run step s [] s
  | snoc {as : List α} {t u : σ} {a : α} : Run step s as t → step t a u → Run step s (as ++ [a]) u

/-- What holds at the start and is kept by every step holds after every run. -/
theorem Run.invariant {I : σ → Prop} {s t : σ} {as : List α} (h : Run step s as t) (h0 : I s)
    (hs : ∀ t a u, I t → step t a u → I u) : I t := by
  induction h with
  | nil => exact h0
  | snoc _ hst ih => exact hs _ _ _ ih hst

theorem Run.nil_eq {s t : σ} (h : Run step s [] t) : t = s := by
  generalize he : ([] : List α) = as at h
  cases h with
  | nil => rfl
  | snoc _ _ => simp at he

/-- The last step of a run. -/
theorem Run.last {s u : σ} {as : List α} {a : α} (h : Run step s (as ++ [a]) u) :
    ∃ t, Run step s as t ∧ step t a u := by
  generalize he : as ++ [a] = bs at h
  cases h with
  | nil => simp at he
  | snoc hr hst =>
    obtain ⟨rfl, rfl⟩ := List.append_singleton_inj.mp he
    exact ⟨_, hr, hst⟩

/-- A prefix of a run is a run. -/
theorem Run.split {s u : σ} {as bs : List α} (h : Run step s (as ++ bs) u) :
    ∃ t, Run step s as t ∧ Run step t bs u := by
  induction bs using List.reverseRecOn generalizing u with
  | nil => exact ⟨u, by simpa using h, .nil⟩
  | append_singleton bs b ih =>
    rw [← List.append_assoc] at h
    obtain ⟨v, hv, hst⟩ := h.last
    obtain ⟨t, ht, hb⟩ := ih hv
    exact ⟨t, ht, hb.snoc hst⟩

/-- A run of steps that a function computes. -/
theorem Run.foldlM {f : σ → α → Option σ} {s t : σ} {as : List α} (h : as.foldlM f s = some t) :
    Run (fun s a t => f s a = some t) s as t := by
  induction as using List.reverseRecOn generalizing t with
  | nil =>
    obtain rfl := Option.some.inj h
    exact .nil
  | append_singleton as a ih =>
    rw [List.foldlM_append] at h
    obtain ⟨u, hu, h⟩ := Option.bind_eq_some_iff.mp h
    rw [List.foldlM_cons] at h
    obtain ⟨v, hv, h⟩ := Option.bind_eq_some_iff.mp h
    obtain rfl := Option.some.inj h
    exact (ih hu).snoc hv

/-- A state and an action lead to one state at most. -/
def Deterministic (step : σ → α → σ → Prop) : Prop := ∀ s a t u, step s a t → step s a u → t = u

/-- Runs of a deterministic relation are determined by their actions. -/
theorem Run.deterministic (hd : Deterministic step) {s t u : σ}
    {as : List α} (h : Run step s as t) (h' : Run step s as u) : t = u := by
  induction h generalizing u with
  | nil => exact h'.nil_eq.symm
  | snoc _ hst ih =>
    obtain ⟨v, hv, hst'⟩ := h'.last
    obtain rfl := ih hv
    exact hd _ _ _ _ hst hst'

theorem steps_nil {G : σ → α → Prop} {s : σ} :
    ∀ (bs : List α) (a : α) (cs : List α) (u : σ), [] = bs ++ a :: cs → Run step s bs u → G u a :=
  fun bs a cs u he => by simp at he

/-- A condition on every step of a run, one step longer. -/
theorem Run.steps_snoc (hd : Deterministic step) {G : σ → α → Prop} {s t : σ}
    {as : List α} {a : α} (h : Run step s as t)
    (hG : ∀ bs b cs u, as = bs ++ b :: cs → Run step s bs u → G u b) (ha : G t a) :
    ∀ bs b cs u, as ++ [a] = bs ++ b :: cs → Run step s bs u → G u b := by
  intro bs b cs u he hu
  rcases List.eq_nil_or_concat cs with rfl | ⟨cs', c, rfl⟩
  · obtain ⟨rfl, rfl⟩ := List.append_singleton_inj.mp he
    exact hu.deterministic hd h ▸ ha
  · rw [List.concat_eq_append, ← List.cons_append, ← List.append_assoc] at he
    exact hG bs b cs' u (List.append_singleton_inj.mp he).1 hu

/-- Every step of a run has `P` exactly when every step of it is good: `J` holds at the start and is
kept by good steps, and the steps from `J` that have `P` are the good ones. -/
theorem Run.each_iff (hd : Deterministic step) {J : σ → Prop} {P : σ → α → σ → Prop}
    {G : σ → α → Prop} {s t : σ} {as : List α} (h : Run step s as t) (h0 : J s)
    (hgood : ∀ t a u, J t → step t a u → G t a → J u ∧ P t a u)
    (hbad : ∀ t a u, J t → step t a u → P t a u → G t a) :
    (∀ bs a cs u v, as = bs ++ a :: cs → Run step s bs u → step u a v → P u a v) ↔
      (∀ bs a cs u, as = bs ++ a :: cs → Run step s bs u → G u a) := by
  have hJ : ∀ {bs u}, Run step s bs u →
      (∀ ds a es v, bs = ds ++ a :: es → Run step s ds v → G v a) → J u := by
    intro bs u hu hG
    induction hu with
    | nil => exact h0
    | @snoc bs t u a hr hs ih =>
      have ht := ih fun ds b es v he => hG ds b (es ++ [a]) v (by simp [he])
      exact (hgood t a u ht hs (hG bs a [] t rfl hr)).1
  constructor
  · intro hall
    induction h with
    | nil => intro bs a cs u he; simp at he
    | @snoc as t u a hr hs ih =>
      have hpre := ih fun bs b cs v w he => hall bs b (cs ++ [a]) v w (by simp [he])
      exact hr.steps_snoc hd hpre (hbad t a u (hJ hr hpre) hs (hall as a [] t u rfl hr hs))
  · intro hG bs a cs u v he hr hs
    refine (hgood u a v (hJ hr fun ds b es w hbs => hG ds b (es ++ a :: cs) w ?_) hs
      (hG bs a cs u he hr)).2
    simp [he, hbs]

/-- `P` holds all along a run exactly when every step of it is good: `J` holds at the start, gives
`P`, is kept by good steps, and a step from `J` that is not good ends outside `P`. -/
theorem Run.always_iff (hd : Deterministic step) {J P : σ → Prop}
    {G : σ → α → Prop} {s t : σ} {as : List α} (h : Run step s as t) (h0 : J s)
    (hP : ∀ t, J t → P t) (hgood : ∀ t a u, J t → step t a u → G t a → J u)
    (hbad : ∀ t a u, J t → step t a u → ¬ G t a → ¬ P u) :
    (∀ bs cs u, as = bs ++ cs → Run step s bs u → P u) ↔
      (∀ bs a cs u, as = bs ++ a :: cs → Run step s bs u → G u a) := by
  have hsteps : (∀ bs cs u, as = bs ++ cs → Run step s bs u → P u) ↔
      ∀ bs a cs u v, as = bs ++ a :: cs → Run step s bs u → step u a v → P v := by
    constructor
    · intro hall bs a cs u v he hr hs
      exact hall (bs ++ [a]) cs v (by simp [he]) (hr.snoc hs)
    · intro hall bs cs u he hr
      rcases List.eq_nil_or_concat bs with rfl | ⟨bs, a, rfl⟩
      · exact hr.nil_eq ▸ hP s h0
      · rw [List.concat_eq_append] at he hr
        obtain ⟨t, ht, hs⟩ := hr.last
        exact hall bs a cs t u (by simp [he]) ht hs
  rw [hsteps]
  refine h.each_iff hd h0 (fun t a u ht hs hG =>
    ⟨hgood t a u ht hs hG, hP u (hgood t a u ht hs hG)⟩) fun t a u ht hs hu => ?_
  by_contra hG
  exact hbad t a u ht hs hG hu

theorem Run.single {s t : σ} {a : α} (h : step s a t) : Run step s [a] t := .snoc .nil h

end Gpcl.Lib.Runs
