import Gpcl.Json.Lexemes
import Gpcl.Json.RoundTrip

/-! # Offers without end

A visitor that returns from the error event is offered a character that starts no lexeme again and
again, because the indeterminate state stays what it is. Every other character is consumed by its
second offer. -/
namespace Gpcl.Json
open Gpcl.Json.Parser

variable {R σ : Type} {t : RealText R} {visit : Visitor R σ}

/-- What is pending in a state. -/
def ParsingState.pending : ParsingState → Pending
  | .indeterminate => .nothing
  | .parsingLiteral chars => .word chars
  | .parsingNumber chars => .number chars
  | .parsingString chars false => .string chars
  | .parsingString chars true => .closed chars []

theorem ParsingState.state_pending (st : ParsingState) : st.pending.state = st := by
  cases st with
  | parsingString chars closed => cases closed <;> rfl
  | _ => rfl

/-- All handlers return. -/
def Returns (visit : Visitor R σ) : Prop := ∀ v e, ∃ v', visit v e = .ok v'

theorem Returns.steady (h : Returns visit) : Steady visit := .inr fun v => h v .errorEvent

/-- A number that cannot be converted: the cast throws. -/
def Throws (t : RealText R) : Lexeme → Prop
  | .number chars => ∃ e, numberEvent t chars = .error e
  | _ => False

/-- In front of each character that starts no lexeme stands a number that cannot be converted. -/
def Stops (t : RealText R) (xs : List Lexeme) : Prop :=
  ∀ pre c post, xs = pre ++ .bad c :: post → ∃ x ∈ pre, Throws t x

/-! ## The lexemes -/

theorem numberEvent_error {chars : Str} {e : Error} (h : numberEvent t chars = .error e) :
    e = .badLexicalCast := by
  rw [numberEvent] at h
  split at h
  · cases hr : t.read chars with
    | none => rw [castReal, hr] at h; cases h; rfl
    | some r => rw [castReal, hr] at h; cases h
  · cases hi : readInteger chars with
    | none => rw [castInteger, hi] at h; cases h; rfl
    | some i => rw [castInteger, hi] at h; cases h

/-- A lexeme is bad, throws, or is handled. -/
theorem Returns.lexeme (h : Returns visit) (t : RealText R) (v : σ) (x : Lexeme) :
    (∃ c, x = .bad c ∧ visitLexeme t visit v x = .error .outOfFuel) ∨
      (Throws t x ∧ visitLexeme t visit v x = .error .badLexicalCast) ∨
      ∃ v', (∀ c, x ≠ .bad c) ∧ ¬ Throws t x ∧ visitLexeme t visit v x = .ok v' := by
  cases x with
  | bad c =>
    obtain ⟨v', hv⟩ := h v .errorEvent
    refine .inl ⟨c, rfl, ?_⟩
    rw [visitLexeme, hv]
    rfl
  | number chars =>
    cases hn : numberEvent t chars with
    | error e =>
      refine .inr (.inl ⟨⟨e, hn⟩, ?_⟩)
      rw [visitLexeme, hn, numberEvent_error hn]
      rfl
    | ok e =>
      obtain ⟨v', hv⟩ := h v e
      refine .inr (.inr ⟨v', fun c => Lexeme.noConfusion, ?_, ?_⟩)
      · rintro ⟨e', he⟩
        rw [hn] at he
        cases he
      · rw [visitLexeme, hn]
        exact hv
  | blank c => exact .inr (.inr ⟨v, fun c => Lexeme.noConfusion, id, rfl⟩)
  | comma => exact .inr (.inr ⟨v, fun c => Lexeme.noConfusion, id, rfl⟩)
  | word chars =>
    obtain ⟨v', hv⟩ := h v (literalEvent chars)
    exact .inr (.inr ⟨v', fun c => Lexeme.noConfusion, id, hv⟩)
  | text chars ws =>
    obtain ⟨v', hv⟩ := h v (.stringEvent chars)
    exact .inr (.inr ⟨v', fun c => Lexeme.noConfusion, id, hv⟩)
  | key chars ws =>
    obtain ⟨v', hv⟩ := h v (.objectKeyEvent chars)
    exact .inr (.inr ⟨v', fun c => Lexeme.noConfusion, id, hv⟩)
  | opening brace =>
    obtain ⟨v', hv⟩ := h v (if brace then .startObjectEvent else .startArrayEvent)
    exact .inr (.inr ⟨v', fun c => Lexeme.noConfusion, id, hv⟩)
  | closing brace =>
    obtain ⟨v', hv⟩ := h v (if brace then .endObjectEvent else .endArrayEvent)
    exact .inr (.inr ⟨v', fun c => Lexeme.noConfusion, id, hv⟩)

theorem stops_cons {x : Lexeme} {xs : List Lexeme} (hbad : ∀ c, x ≠ .bad c) (hx : ¬ Throws t x) :
    Stops t (x :: xs) ↔ Stops t xs := by
  constructor
  · intro h pre c post he
    obtain ⟨y, hy, hthrow⟩ := h (x :: pre) c post (by rw [he, List.cons_append])
    rcases List.mem_cons.mp hy with rfl | hy
    · exact absurd hthrow hx
    · exact ⟨y, hy, hthrow⟩
  · intro h pre c post he
    cases pre with
    | nil => exact absurd (List.cons.inj he).1 (hbad c)
    | cons y pre =>
      obtain ⟨z, hz, hthrow⟩ := h pre c post (List.cons.inj he).2
      exact ⟨z, List.mem_cons_of_mem _ hz, hthrow⟩

/-- By induction on the lexemes, up to the first that is bad or throws. -/
theorem Returns.fold (h : Returns visit) : ∀ (xs : List Lexeme) (v : σ),
    xs.foldlM (visitLexeme t visit) v ≠ .error .outOfFuel ↔ Stops t xs
  | [], v => ⟨fun _ pre c post he => absurd he (by simp), fun _ he => by cases he⟩
  | x :: xs, v => by
    rw [List.foldlM_cons]
    obtain ⟨c, rfl, hx⟩ | ⟨hthrow, hx⟩ | ⟨v', hbad, hthrow, hx⟩ := h.lexeme t v x
    · rw [hx]
      refine ⟨fun hne => absurd rfl hne, fun hstop => ?_⟩
      obtain ⟨y, hy, -⟩ := hstop [] c xs rfl
      exact absurd hy List.not_mem_nil
    · rw [hx]
      refine ⟨fun _ pre c post he => ?_, fun _ => by rintro ⟨⟩⟩
      cases pre with
      | nil =>
        rw [(List.cons.inj he).1] at hthrow
        exact hthrow.elim
      | cons y pre => exact ⟨x, (List.cons.inj he).1 ▸ List.mem_cons_self, hthrow⟩
    · rw [hx, stops_cons hbad hthrow]
      exact h.fold xs v'

/-! ## The offers -/

/-- More offers change nothing where there were enough. -/
theorem putChar_more {c : Char} : ∀ {fuel : Nat} {st : ParsingState} {v : σ},
    putChar t visit c fuel st v ≠ .error .outOfFuel →
    putChar t visit c (fuel + 1) st v = putChar t visit c fuel st v
  | 0, st, v, hne => absurd rfl hne
  | fuel + 1, st, v, hne => by
    rw [putChar] at hne ⊢
    conv => rhs; rw [putChar]
    cases ho : putState t visit c v st with
    | error e => rfl
    | ok o =>
      rw [ho] at hne
      cases hconsumed : o.consumed with
      | true => simp only [bind, Except.bind, hconsumed, if_true]
      | false =>
        simp only [bind, Except.bind, hconsumed, Bool.false_eq_true, if_false] at hne ⊢
        exact putChar_more hne

theorem put_more {fuel : Nat} : ∀ {text : Str} {st : ParsingState} {v : σ},
    put t visit fuel text st v ≠ .error .outOfFuel →
    put t visit (fuel + 1) text st v = put t visit fuel text st v
  | [], _, _, _ => rfl
  | c :: text, st, v, hne => by
    rw [put] at hne
    have hchar : putChar t visit c fuel st v ≠ .error .outOfFuel := by
      intro he
      rw [he] at hne
      exact hne rfl
    rw [put, put, putChar_more hchar]
    cases hp : putChar t visit c fuel st v with
    | error e => rfl
    | ok r =>
      rw [hp] at hne
      exact put_more hne

/-- Two offers are enough for every character, where any number is. -/
theorem Returns.two_offers (h : Returns visit) (text : Str) (st : ParsingState) (v : σ)
    (fuel : Nat) :
    put t visit (fuel + 2) text st v ≠ .error .outOfFuel ↔ Stops t (lexFrom st.pending text).1 := by
  have hput : put t visit (fuel + 2) text st.pending.state v = _ :=
    put_lexemes h.steady text st.pending v
  rw [st.state_pending] at hput
  rw [hput, visitLexemes, ← h.fold (lexFrom st.pending text).1 v]
  cases (lexFrom st.pending text).1.foldlM (visitLexeme t visit) v with
  | error e =>
    constructor <;> intro hne he <;> cases he <;> exact hne rfl
  | ok v =>
    constructor <;> intro _ he <;> cases he

/-- With a visitor whose handlers all return, a run over a text ends if no character that starts no
lexeme is reached. -/
theorem put_terminates_iff (t : RealText R) (visit : Visitor R σ) (text : Str) (st : ParsingState)
    (v : σ) (h : Returns visit) :
    (∃ fuel, put t visit fuel text st v ≠ .error .outOfFuel) ↔
    Stops t (lexFrom st.pending text).1 := by
  rw [← h.two_offers text st v 0]
  refine ⟨fun ⟨fuel, hne⟩ => ?_, fun hne => ⟨2, hne⟩⟩
  have hmore := put_more hne
  have htwo : put t visit (fuel + 2) text st v ≠ .error .outOfFuel := by
    rw [put_more (hmore.symm ▸ hne), hmore]
    exact hne
  exact (h.two_offers text st v 0).mpr ((h.two_offers text st v fuel).mp htwo)

/-- A visitor that keeps the events. -/
def record : Visitor R (List (Event R)) := fun log e => .ok (log ++ [e])

theorem returns_record : Returns (record (R := R)) := fun log e => ⟨log ++ [e], rfl⟩

theorem put_terminates_array :
    (∃ fuel, put wholeNumbers record fuel ['[', '1', ']'] .indeterminate [] ≠ .error .outOfFuel) ↔
    Stops wholeNumbers (lexFrom ParsingState.indeterminate.pending ['[', '1', ']']).1 :=
  put_terminates_iff wholeNumbers record ['[', '1', ']'] .indeterminate [] returns_record

/-- A colon that follows no string. -/
theorem put_colon_endless :
    ¬ ∃ fuel, put wholeNumbers record fuel [':'] .indeterminate [] ≠ .error .outOfFuel := by
  rintro ⟨fuel, hne⟩
  have hchar : putChar wholeNumbers record ':' fuel .indeterminate [] = .error .outOfFuel :=
    putChar_endless (fun log => rfl) (fun log => returns_record log .errorEvent) fuel []
  rw [put, hchar] at hne
  exact hne rfl

end Gpcl.Json
