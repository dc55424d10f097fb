import Gpcl.Json.Endless

/-! # Tokens read back

The writer escapes quotes and backslashes, the reader takes a string up to its first quote and every
character for itself. A minus sign is written, and starts no number. -/
namespace Gpcl.Json
open Gpcl.Json.Parser

variable {R : Type} {t : RealText R} {st : PrintStyle} {n fuel : Nat} {log evs : List (Event R)}
    {s rest : Str}

/-! ## Recorded events -/

theorem visitLexeme_record (t : RealText R) (log : List (Event R)) (x : Lexeme) :
    visitLexeme t record log x = (visitLexeme t record [] x).map (log ++ ·) := by
  cases x with
  | blank c => exact congrArg Except.ok (List.append_nil log).symm
  | comma => exact congrArg Except.ok (List.append_nil log).symm
  | number chars =>
    rw [visitLexeme, visitLexeme]
    cases numberEvent t chars with
    | error e => rfl
    | ok e => rfl
  | _ => rfl

/-- What is recorded does not depend on what was recorded before. -/
theorem fold_record (t : RealText R) : ∀ (xs : List Lexeme) (log : List (Event R)),
    xs.foldlM (visitLexeme t record) log = (xs.foldlM (visitLexeme t record) []).map (log ++ ·)
  | [], log => congrArg Except.ok (List.append_nil log).symm
  | x :: xs, log => by
    rw [List.foldlM_cons, List.foldlM_cons, visitLexeme_record]
    cases visitLexeme t record [] x with
    | error e => rfl
    | ok l =>
      show xs.foldlM (visitLexeme t record) (log ++ l) = (xs.foldlM (visitLexeme t record) l).map _
      rw [fold_record t xs (log ++ l), fold_record t xs l]
      cases xs.foldlM (visitLexeme t record) [] with
      | error e => rfl
      | ok l' => exact congrArg Except.ok (List.append_assoc _ _ _)

theorem put_record (text : Str) (log : List (Event R)) :
    put t record (fuel + 2) text .indeterminate log =
    (put t record (fuel + 2) text .indeterminate []).map fun r => (r.1, log ++ r.2) := by
  have hput (log : List (Event R)) : put t record (fuel + 2) text .indeterminate log = _ :=
    put_lexemes returns_record.steady text .nothing log
  rw [hput, hput, visitLexemes, visitLexemes, fold_record t _ log]
  cases (lexFrom .nothing text).1.foldlM (visitLexeme t record) [] with
  | error e => rfl
  | ok l => rfl

/-- The first event is that of the first lexeme. -/
theorem first_event {x : Lexeme} {xs : List Lexeme} {p : Pending} {e e' : Event R}
    {q : ParsingState} (hlex : lexFrom .nothing rest = (x :: xs, p))
    (hx : visitLexeme t record [] x = .ok [e])
    (hput : put t record (fuel + 2) rest .indeterminate log = .ok (q, log ++ e' :: evs)) :
    e = e' := by
  have hrun : put t record (fuel + 2) rest .indeterminate log = _ :=
    put_lexemes returns_record.steady rest .nothing log
  rw [hlex, visitLexemes_cons, visitLexeme_record, hx] at hrun
  rw [hrun] at hput
  simp only [Except.map, Except.bind, visitLexemes, fold_record t xs (log ++ [e])] at hput
  cases hfold : xs.foldlM (visitLexeme t record) [] with
  | error e => rw [hfold] at hput; cases hput
  | ok l =>
    rw [hfold] at hput
    have hlog : log ++ [e] ++ l = log ++ e' :: evs := congrArg Prod.snd (Except.ok.inj hput)
    rw [List.append_assoc, List.append_cancel_left_eq] at hlog
    exact (List.cons.inj hlog).1

/-! ## Strings and keys -/

/-- What is written between the quotes. -/
def escape (s : Str) : Str := s.flatMap fun c => if c = '"' ∨ c = '\\' then ['\\', c] else [c]

theorem escape_append (a b : Str) : escape (a ++ b) = escape a ++ escape b := List.flatMap_append

theorem quote_not_mem_escape (h : '"' ∉ s) : '"' ∉ escape s := by
  intro hmem
  obtain ⟨c, hc, hin⟩ := List.mem_flatMap.mp hmem
  split at hin
  · rcases List.mem_cons.mp hin with he | hin
    · exact absurd he (by decide)
    · exact h (List.mem_singleton.mp hin ▸ hc)
  · exact h (List.mem_singleton.mp hin ▸ hc)

theorem length_le_escape : ∀ s : Str, s.length ≤ (escape s).length
  | [] => Nat.le_refl 0
  | c :: s => by
    have ih := length_le_escape s
    rw [escape, List.flatMap_cons, List.length_append, List.length_cons]
    show s.length + 1 ≤ _ + (escape s).length
    split
    · rw [List.length_cons]
      omega
    · rw [List.length_singleton]
      omega

/-- Where the reader finds the end of a written text that it does not read back. -/
theorem quoted_cut (hs : ¬ Unescaped s) :
    ∃ x r, quoted s = '"' :: (x ++ '"' :: r) ∧ '"' ∉ x ∧ x ≠ s := by
  by_cases hquote : '"' ∈ s
  · obtain ⟨a, b, rfl, ha⟩ := List.eq_append_cons_of_mem hquote
    have hx : '"' ∉ escape a ++ ['\\'] := by
      rw [List.mem_append, not_or]
      exact ⟨quote_not_mem_escape ha, by decide⟩
    refine ⟨escape a ++ ['\\'], escape b ++ ['"'], ?_, hx, fun he => hx (he ▸ hquote)⟩
    show '"' :: (escape (a ++ '"' :: b) ++ ['"']) = _
    rw [escape_append]
    simp [escape]
  · refine ⟨escape s, [], rfl, quote_not_mem_escape hquote, fun he => ?_⟩
    obtain ⟨c, hc, hesc⟩ : ∃ c ∈ s, c = '\\' := by
      by_contra! hno
      exact hs fun c hc => ⟨fun he => hquote (he ▸ hc), hno c hc⟩
    obtain ⟨a, b, rfl⟩ := List.append_of_mem hc
    have hlen := congrArg List.length he
    rw [hesc, escape_append, List.length_append, List.length_append, List.length_cons] at hlen
    have ha := length_le_escape a
    have hb := length_le_escape b
    have hcons : (escape ('\\' :: b)).length = (escape b).length + 2 := by simp [escape]
    omega

/-- Behind its second quote a string is complete with the first character that is not a blank. -/
theorem lexFrom_nonblank {x : Str} : ∀ {r : Str} (ws : Str), (∃ c ∈ r, isspace c = false) →
    ∃ ws' xs p, lexFrom (.closed x ws) r = (.text x ws' :: xs, p) ∨
    lexFrom (.closed x ws) r = (.key x ws' :: xs, p)
  | [], _, h => by
    obtain ⟨c, hc, -⟩ := h
    exact absurd hc List.not_mem_nil
  | c :: r, ws, h => by
    cases hspace : isspace c with
    | true =>
      have hrest : ∃ c ∈ r, isspace c = false := by
        obtain ⟨d, hd, hno⟩ := h
        rcases List.mem_cons.mp hd with rfl | hd
        · rw [hspace] at hno
          cases hno
        · exact ⟨d, hd, hno⟩
      obtain ⟨ws', xs, p, hlex⟩ := lexFrom_nonblank (ws ++ [c]) hrest
      refine ⟨ws', xs, p, ?_⟩
      rw [lexFrom, continueLexeme, if_pos hspace]
      exact hlex
    | false =>
      by_cases hcolon : c = ':'
      · refine ⟨ws, (lexFrom .nothing r).1, (lexFrom .nothing r).2, .inr ?_⟩
        rw [lexFrom, continueLexeme, if_neg (ne_true_of_eq_false hspace), if_pos hcolon]
        rfl
      · refine ⟨ws, (startLexeme c).1 ++ (lexFrom (startLexeme c).2 r).1,
          (lexFrom (startLexeme c).2 r).2, .inl ?_⟩
        rw [lexFrom, continueLexeme, if_neg (ne_true_of_eq_false hspace), if_neg hcolon]
        rfl

/-- What was written for a string with characters to escape does not start with its event. -/
theorem not_read_back (hs : ¬ Unescaped s) (hrest : ∃ c ∈ rest, isspace c = false) {e : Event R}
    {q : ParsingState} (he : e = .stringEvent s ∨ e = .objectKeyEvent s) :
    put t record (fuel + 2) (quoted s ++ rest) .indeterminate log ≠ .ok (q, log ++ e :: evs) := by
  intro hput
  obtain ⟨x, r, hcut, hx, hne⟩ := quoted_cut hs
  have hbody : lexFrom .nothing (quoted s ++ rest) = lexFrom (.closed x []) (r ++ rest) := by
    rw [hcut, List.cons_append, lexFrom_quote, List.append_assoc, List.cons_append,
      lexFrom_string hx, List.nil_append]
  obtain ⟨c, hc, hspace⟩ := hrest
  obtain ⟨ws, xs, p, hlex | hlex⟩ := lexFrom_nonblank [] ⟨c, List.mem_append_right r hc, hspace⟩
  · have hfirst := first_event (hbody.trans hlex) rfl hput
    rcases he with rfl | rfl
    · exact hne (Event.stringEvent.inj hfirst)
    · cases hfirst
  · have hfirst := first_event (hbody.trans hlex) rfl hput
    rcases he with rfl | rfl
    · cases hfirst
    · exact hne (Event.objectKeyEvent.inj hfirst)

theorem Follow.nonblank (h : Follow rest) : ∃ c ∈ rest, isspace c = false := by
  induction h with
  | @stop c rest hc => exact ⟨c, List.mem_cons_self, by rcases hc with rfl | rfl | rfl <;> rfl⟩
  | space _ _ ih =>
    obtain ⟨c, hc, hspace⟩ := ih
    exact ⟨c, List.mem_cons_of_mem _ hc, hspace⟩

/-- A string in a container, and a key, are each read back as one event, if they have no characters
to escape. -/
theorem strings_read_back_iff (t : RealText R) (st : PrintStyle) (n fuel : Nat) (s : Str)
    (log : List (Event R)) {rest rest' : Str} {q q' : ParsingState} {evs evs' : List (Event R)}
    (hfollow : Follow rest) (hrest : put t record (fuel + 2) rest .indeterminate [] = .ok (q, evs))
    (hrest' : put t record (fuel + 2) rest' .indeterminate [] = .ok (q', evs')) :
    (put t record (fuel + 2) (serialize t st n (.string s) ++ rest) .indeterminate log =
      .ok (q, log ++ .stringEvent s :: evs) ↔
      Unescaped s) ∧
    (put t record (fuel + 2) (quoted s ++ ':' :: rest') .indeterminate log =
      .ok (q', log ++ .objectKeyEvent s :: evs') ↔
      Unescaped s) := by
  rw [serialize]
  refine ⟨⟨fun hput => ?_, fun hs => ?_⟩, ⟨fun hput => ?_, fun hs => ?_⟩⟩
  · by_contra hs
    exact not_read_back hs hfollow.nonblank (.inl rfl) hput
  · rw [put_quoted hs, put_string_end hfollow rfl, put_record, hrest]
    exact congrArg (fun l => Except.ok (q, l)) (List.append_assoc _ _ _)
  · by_contra hs
    exact not_read_back hs ⟨':', List.mem_cons_self, rfl⟩ (.inr rfl) hput
  · have hkey :
        putState t record ':' log (.parsingString s true) =
          .ok ⟨true, .indeterminate, log ++ [.objectKeyEvent s]⟩ := rfl
    rw [put_quoted hs, put_consumed hkey, put_record, hrest']
    exact congrArg (fun l => Except.ok (q', l)) (List.append_assoc _ _ _)

theorem strings_read_back_letter :
    (put wholeNumbers record 2
      (serialize wholeNumbers .compressed 0 (.string ['a']) ++ [']']) .indeterminate [] =
      .ok (.indeterminate, [] ++ .stringEvent ['a'] :: [.endArrayEvent]) ↔ Unescaped ['a']) ∧
    (put wholeNumbers record 2 (quoted ['a'] ++ ':' :: ['\x7d']) .indeterminate [] =
      .ok (.indeterminate, [] ++ .objectKeyEvent ['a'] :: [.endObjectEvent]) ↔ Unescaped ['a']) :=
  strings_read_back_iff wholeNumbers .compressed 0 0 ['a'] [] (.stop (.inr (.inl rfl))) rfl rfl

/-- The quote inside ends the string, and the one behind it opens another. -/
theorem quote_not_read_back : ¬ ∃ q,
    put wholeNumbers record 2
      (serialize wholeNumbers .compressed 0 (.array [.string ['"']])) .indeterminate [] =
      .ok (q, [.startArrayEvent, .stringEvent ['"'], .endArrayEvent]) := by
  have hrun :
      put wholeNumbers record 2
        (serialize wholeNumbers .compressed 0 (.array [.string ['"']])) .indeterminate [] =
      .ok (.parsingString [']'] false, [.startArrayEvent, .stringEvent ['\\']]) := rfl
  rintro ⟨q, hq⟩
  rw [hrun] at hq
  cases hq

/-! ## Integers -/

/-- The first character of a negative integer starts no lexeme. -/
theorem scan_minus (t : RealText R) (fuel : Nat) (rest : Str) (stack : ValueBuilder R) :
    scan t fuel ('-' :: rest) stack = .error (.failedToParse "parser") := rfl

theorem parse_negative (t : RealText R) (hst : st.Skipped) (n fuel : Nat) {i : Int} (hi : i < 0) :
    parse t (fuel + 2) (serialize t st n (.array [.integer i])) =
      .error (.failedToParse "parser") := by
  have hopen (text : Str) :
      scan t fuel ('[' :: text) .init = scan t fuel text (.array [] :: ValueBuilder.init) :=
        scan_event rfl
  have hscan :
      scan t fuel (serialize t st n (.array [.integer i])) .init =
        .error (.failedToParse "parser") := by
    rw [serialize, serializeArray, hopen, List.append_assoc,
      scan_skip (newline_skipped hst (n + 1)), serialize, printInteger, if_pos hi, List.cons_append,
      List.cons_append, scan_minus]
  rw [parse]
  exact congrArg (· >>= fun r => r.2.getValue) hscan

/-- A 64-bit integer, written in an array, is read back if it is not negative. -/
theorem parse_integer_iff (t : RealText R) (st : PrintStyle) (hst : st.Skipped) (n fuel : Nat)
    (i : Int) (hlo : -2 ^ 63 ≤ i) (hhi : i < 2 ^ 63) :
    parse t (fuel + 2) (serialize t st n (.array [.integer i])) = .ok (.array [.integer i]) ↔
    0 ≤ i := by
  constructor
  · intro h
    by_contra hneg
    rw [parse_negative t hst n fuel (Int.not_le.mp hneg)] at h
    cases h
  · intro h0
    have htyped : (Json.array [.integer i] : Json R).Typed :=
      .array fun x hx => List.mem_singleton.mp hx ▸ .integer hlo hhi
    exact parse_serialize t st hst ⟨.array [.integer i], htyped⟩
      (.array fun x hx => List.mem_singleton.mp hx ▸ .integer h0)
      rfl n fuel

theorem parse_integer_seven :
    parse wholeNumbers 2 (serialize wholeNumbers .compressed 0 (.array [.integer 7])) =
    .ok (.array [.integer 7]) ↔ 0 ≤ (7 : Int) :=
  parse_integer_iff wholeNumbers .compressed trivial 0 0 7 (by decide) (by decide)

theorem parse_minus_one :
    parse wholeNumbers 2 (serialize wholeNumbers .compressed 0 (.array [.integer (-1)])) ≠
    .ok (.array [.integer (-1)]) := by
  have hrun := parse_negative wholeNumbers (show PrintStyle.compressed.Skipped from trivial) 0 0
    (show (-1 : Int) < 0 by decide)
  rw [hrun]
  rintro ⟨⟩

end Gpcl.Json
