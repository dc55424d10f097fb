import Gpcl.Json.Fits

/-! # What the parser accepts

The converse: the lexemes of a document fit together, unless the parser ended a string at an escaped
quote. A derivation is read from left to right; behind a separator the parser is in its first state
again. -/
namespace Gpcl.Json

variable {R : Type}

/-- A string that ended at a quote that is escaped. -/
def Lexeme.AtEscape : Lexeme → Prop
  | .text chars _ | .key chars _ => StringBody (chars ++ ['"'])
  | _ => False

/-- The parser ended a string of the text at an escaped quote. -/
def EndsAtEscape (text : Str) : Prop := ∃ x ∈ tokens text, x.AtEscape

/-- The lexeme ends before this character. -/
def Pending.EndsBefore (c : Char) : Pending → Prop
  | .nothing => True
  | .word _ => c.isAlphanum = false
  | .number _ => (c.isDigit || c == '.') = false
  | .string _ => False
  | .closed _ _ => isspace c = false ∧ c ≠ ':'

/-- Every continuation starts anew behind the characters. -/
def Lexes (u : Str) (xs : List Lexeme) : Prop :=
  ∀ s, lexFrom .nothing (u ++ s) = (xs ++ (lexFrom .nothing s).1, (lexFrom .nothing s).2)

/-- The text does not end in a string. -/
def Closed (s : Str) : Prop := ∀ chars, (lexFrom .nothing s).2 ≠ .string chars

section
variable {p : Pending} {c : Char} {s s' u u' w k : Str} {xs ys : List Lexeme}

theorem tokensFrom_cons (p : Pending) (c : Char) (s : Str) :
    tokensFrom p (c :: s) = (continueLexeme p c).1 ++ tokensFrom (continueLexeme p c).2 s := by
  simp [tokensFrom, lexFrom]

theorem Lexes.tokens (h : Lexes u xs) (s : Str) : tokens (u ++ s) = xs ++ tokens s := by
  simp [Json.tokens, tokensFrom, h s]

theorem Lexes.closed (h : Lexes u xs) (hs : Closed s) : Closed (u ++ s) := by
  intro chars
  rw [h s]
  exact hs chars

theorem Lexes.append (h : Lexes u xs) (h' : Lexes u' ys) : Lexes (u ++ u') (xs ++ ys) := by
  intro s
  rw [List.append_assoc, h, h']
  simp

theorem lexes_spaces (hw : Spaces w) : Lexes w (w.map .blank) := by
  induction w with
  | nil => exact fun s => rfl
  | cons c w ih =>
    intro s
    have hc : isspace c = true := isspace_of_isJsonSpace (hw c (by simp))
    have hw : Spaces w := fun c hc => hw c (by simp [hc])
    rw [List.cons_append, lexFrom, continueLexeme, startLexeme, if_pos hc, ih hw s]
    rfl

theorem lexes_leftBracket (brace : Bool) : Lexes [leftBracket brace] [.opening brace] := by
  intro s
  cases brace <;> rfl

/-- A pending lexeme that ends is complete. -/
theorem continueLexeme_endsBefore (h : p.EndsBefore c) :
    continueLexeme p c = (p.complete ++ (startLexeme c).1, (startLexeme c).2) := by
  cases p with
  | nothing => rfl
  | word chars =>
    have h : c.isAlphanum = false := h
    simp [continueLexeme, Pending.complete, h]
  | number chars =>
    have h : (c.isDigit || c == '.') = false := h
    simp only [continueLexeme, h]
    rfl
  | string chars => exact h.elim
  | closed chars ws =>
    simp [continueLexeme, Pending.complete, h.1, h.2]

/-- Behind a character that is a lexeme of its own, all is complete. -/
theorem lexes_of_endsBefore {x : Lexeme} (hp : (lexFrom .nothing s).2.EndsBefore c)
    (hc : startLexeme c = ([x], .nothing)) :
    Lexes (s ++ [c]) (tokens s ++ [x]) := by
  intro s'
  rw [List.append_assoc, lexFrom_append, List.singleton_append, lexFrom,
    continueLexeme_endsBefore hp, hc]
  simp [tokens, tokensFrom]

/-- A character that ends every lexeme but a string. -/
inductive Separator : Char → Lexeme → Prop
  | comma : Separator ',' .comma
  | closing (brace : Bool) : Separator (rightBracket brace) (.closing brace)

theorem Separator.startLexeme {x : Lexeme} (h : Separator c x) :
    startLexeme c = ([x], .nothing) := by
  cases h with
  | comma => rfl
  | closing brace => cases brace <;> rfl

theorem Separator.endsBefore {x : Lexeme} (h : Separator c x) (hp : ∀ chars, p ≠ .string chars) :
    p.EndsBefore c := by
  have hc : c.isAlphanum = false ∧ (c.isDigit || c == '.') = false ∧ isspace c = false ∧
      c ≠ ':' := by
    cases h with
    | comma => decide
    | closing brace => cases brace <;> decide
  cases p with
  | nothing => trivial
  | word chars => exact hc.1
  | number chars => exact hc.2.1
  | string chars => exact absurd rfl (hp chars)
  | closed chars ws => exact hc.2.2

theorem Closed.lexes {x : Lexeme} (hs : Closed s) (hc : Separator c x) :
    Lexes (s ++ [c]) (tokens s ++ [x]) :=
  lexes_of_endsBefore (hc.endsBefore hs) hc.startLexeme

theorem lexFrom_closed (hw : Spaces w) (chars ws : Str) :
    lexFrom (.closed chars ws) (w ++ s) = lexFrom (.closed chars (ws ++ w)) s := by
  induction w generalizing ws with
  | nil => simp
  | cons c w ih =>
    have hc : isspace c = true := isspace_of_isJsonSpace (hw c (by simp))
    have hw : Spaces w := fun c hc => hw c (by simp [hc])
    rw [List.cons_append, lexFrom, continueLexeme, if_pos hc, ih hw]
    simp

theorem lexes_key (hk : '"' ∉ k) (hw : Spaces w) :
    Lexes ('"' :: (k ++ '"' :: (w ++ [':']))) [.key k w] := by
  intro s
  have hcolon : isspace ':' = false := by decide
  simp only [List.cons_append, List.append_assoc, List.nil_append]
  rw [lexFrom_quote, lexFrom_string hk, lexFrom_closed hw, lexFrom]
  simp [continueLexeme, hcolon]

/-- The string that is closed becomes a lexeme. -/
theorem mem_tokensFrom_closed (chars ws s : Str) :
    ∃ ws', .text chars ws' ∈ tokensFrom (.closed chars ws) s ∨
    .key chars ws' ∈ tokensFrom (.closed chars ws) s := by
  induction s generalizing ws with
  | nil => exact ⟨ws, .inl (by simp [tokensFrom, lexFrom, Pending.complete])⟩
  | cons c s ih =>
    rw [tokensFrom_cons]
    simp only [continueLexeme]
    split
    · exact ih _
    · split
      · exact ⟨ws, .inr (by simp)⟩
      · exact ⟨ws, .inl (by simp)⟩

theorem endsAtEscape_of_quote (h : StringBody k) (hq : '"' ∈ k) (rest : Str) :
    EndsAtEscape ('"' :: (k ++ rest)) := by
  obtain ⟨pre, post, rfl, hpre, hbody⟩ := h.first_quote hq
  have htokens :
      tokens ('"' :: (pre ++ '"' :: post ++ rest)) =
        tokensFrom (.closed pre []) (post ++ rest) := by
    simp [tokens, tokensFrom, lexFrom_quote, lexFrom_string hpre]
  obtain ⟨ws, h | h⟩ := mem_tokensFrom_closed pre [] (post ++ rest)
  · exact ⟨.text pre ws, htokens ▸ h, hbody⟩
  · exact ⟨.key pre ws, htokens ▸ h, hbody⟩

theorem Lexes.endsAtEscape (h : Lexes u xs) (hs : EndsAtEscape s) : EndsAtEscape (u ++ s) := by
  obtain ⟨x, hx, hesc⟩ := hs
  refine ⟨x, ?_, hesc⟩
  rw [h.tokens]
  exact List.mem_append_right xs hx

end

/-! ## Along a derivation -/

/-- The parser ends a string of it at an escaped quote, or it ends outside of strings with a foreign
lexeme or lexemes as wanted. -/
def Lexed (s : Str) (wanted : List Lexeme → Prop) : Prop :=
  (∀ rest, EndsAtEscape (s ++ rest)) ∨ Closed s ∧
    ((∃ x ∈ tokens s, x.foreign = true) ∨ wanted (tokens s))

section
variable {s s' u w k : Str} {c : Char} {x : Lexeme} {ys : List Lexeme}
    {wanted wanted' wanted'' : List Lexeme → Prop}

theorem Lexed.after (hu : Lexes u ys) (h : Lexed s wanted)
    (hw : ∀ xs, wanted xs → wanted' (ys ++ xs)) : Lexed (u ++ s) wanted' := by
  rcases h with hesc | ⟨hclosed, h⟩
  · left
    intro rest
    rw [List.append_assoc]
    exact hu.endsAtEscape (hesc rest)
  · right
    refine ⟨hu.closed hclosed, ?_⟩
    rw [hu.tokens]
    rcases h with ⟨x, hx, hf⟩ | h
    · exact .inl ⟨x, List.mem_append_right ys hx, hf⟩
    · exact .inr (hw _ h)

/-- Two pieces with a separator between them. -/
theorem Lexed.separate (h : Lexed s wanted) (hc : Separator c x) (h' : Lexed s' wanted')
    (hw : ∀ xs ys, wanted xs → wanted' ys → wanted'' (xs ++ x :: ys)) :
    Lexed (s ++ c :: s') wanted'' := by
  rcases h with hesc | ⟨hclosed, hs⟩
  · left
    intro rest
    rw [List.append_assoc]
    exact hesc _
  · have hlexes := hclosed.lexes hc
    have hassoc : s ++ c :: s' = (s ++ [c]) ++ s' := by simp
    rw [hassoc]
    rcases hs with ⟨y, hy, hf⟩ | hs
    · -- the lexemes of the first piece are among those of the whole
      rcases h' with hesc' | ⟨hclosed', -⟩
      · left
        intro rest
        rw [List.append_assoc]
        exact hlexes.endsAtEscape (hesc' rest)
      · right
        refine ⟨hlexes.closed hclosed', .inl ⟨y, ?_, hf⟩⟩
        rw [hlexes.tokens]
        simp [hy]
    · refine h'.after hlexes ?_
      intro ys hys
      have := hw _ _ hs hys
      simpa using this

theorem lexed_nil : Lexed [] (· = []) := .inr ⟨nofun, .inr rfl⟩

theorem lexed_spaces (hw : Spaces w) : Lexed w (· = w.map .blank) := by
  have : Lexed (w ++ []) (· = w.map .blank) := lexed_nil.after (lexes_spaces hw) (by simp)
  simpa using this

end

/-- Outside of strings. -/
def Pending.plain : Pending → Bool
  | .nothing | .word _ | .number _ => true
  | .string _ | .closed _ _ => false

section
variable {p : Pending} {c : Char} {s w k n : Str}

theorem plain_endsBefore (hp : p.plain = true) (hc : isJsonSpace c = true) : p.EndsBefore c := by
  obtain ⟨halnum, hnumber, -⟩ := notToken (.inl (isspace_of_isJsonSpace hc))
  cases p with
  | nothing => trivial
  | word chars => exact halnum
  | number chars => exact hnumber
  | string chars => cases hp
  | closed chars ws => cases hp

/-- White space behind a lexeme that is no string. -/
theorem lexed_plain (hp : (lexFrom .nothing s).2.plain = true) (hw : Spaces w) :
    Closed (s ++ w) ∧ tokens (s ++ w) = tokens s ++ w.map .blank := by
  cases w with
  | nil =>
    simp only [List.append_nil, List.map_nil, and_true]
    intro chars h
    rw [h] at hp
    cases hp
  | cons c w =>
    have hc : isJsonSpace c = true := hw c (by simp)
    have hstart : startLexeme c = ([.blank c], .nothing) := if_pos (isspace_of_isJsonSpace hc)
    have hlexes := lexes_of_endsBefore (plain_endsBefore hp hc) hstart
    have hw : Lexes w (w.map .blank) := lexes_spaces fun c hc => hw c (by simp [hc])
    have hall := hlexes.append hw
    have hnil : Closed [] := nofun
    have hassoc : s ++ c :: w = (s ++ [c] ++ w) ++ [] := by simp
    rw [hassoc]
    refine ⟨hall.closed hnil, ?_⟩
    rw [hall.tokens]
    simp [tokens, tokensFrom, lexFrom, Pending.complete]

/-- Only a quote leads into a string. -/
theorem lexFrom_plain (hp : p.plain = true) (hs : '"' ∉ s) : (lexFrom p s).2.plain = true := by
  induction s generalizing p with
  | nil => exact hp
  | cons c s ih =>
    have hc : c ≠ '"' := fun h => hs (by simp [h])
    have hs : '"' ∉ s := fun h => hs (by simp [h])
    have hstart : (startLexeme c).2.plain = true := by
      unfold startLexeme
      split_ifs <;> rfl
    have hcontinue : (continueLexeme p c).2.plain = true := by
      cases p with
      | nothing => exact hstart
      | word chars =>
        simp only [continueLexeme]
        split
        · rfl
        · exact hstart
      | number chars =>
        simp only [continueLexeme]
        split
        · rfl
        · exact hstart
      | string chars => cases hp
      | closed chars ws => cases hp
    exact ih hcontinue hs

theorem lexFrom_literal (h : isLiteral s = true) : lexFrom .nothing s = ([], .word s) := by
  rcases isLiteral_cases h with rfl | rfl | rfl <;> rfl

theorem lexed_literal (h : isLiteral s = true) (hw : Spaces w) :
    Lexed (s ++ w) (· = .word s :: w.map .blank) := by
  have hs := lexFrom_literal h
  obtain ⟨hclosed, htokens⟩ := lexed_plain (by rw [hs]; rfl) hw
  refine .inr ⟨hclosed, .inr ?_⟩
  rw [htokens]
  simp [tokens, tokensFrom, hs, Pending.complete]

/-- A string and the white space behind it are pending. -/
theorem lexFrom_text (hk : '"' ∉ k) (hw : Spaces w) :
    lexFrom .nothing ('"' :: (k ++ ['"']) ++ w) = ([], .closed k w) := by
  have hassoc : '"' :: (k ++ ['"']) ++ w = '"' :: (k ++ '"' :: (w ++ [])) := by simp
  rw [hassoc, lexFrom_quote, lexFrom_string hk, lexFrom_closed hw]
  rfl

theorem lexed_string (h : StringBody k) (hw : Spaces w) :
    Lexed ('"' :: (k ++ ['"']) ++ w) (· = [.text k w]) := by
  by_cases hq : '"' ∈ k
  · left
    intro rest
    have := endsAtEscape_of_quote h hq ('"' :: (w ++ rest))
    simpa using this
  · right
    have hlex := lexFrom_text hq hw
    refine ⟨?_, .inr ?_⟩
    · intro chars
      rw [hlex]
      nofun
    · rw [tokens, tokensFrom, hlex]
      rfl

theorem lexFrom_number (h : ∀ c ∈ s, (c.isDigit || c == '.') = true) (chars rest : Str) :
    lexFrom (.number chars) (s ++ rest) = lexFrom (.number (chars ++ s)) rest := by
  induction s generalizing chars with
  | nil => simp
  | cons c s ih =>
    have hc := h c (by simp)
    have hs : ∀ c ∈ s, (c.isDigit || c == '.') = true := fun c hc => h c (by simp [hc])
    rw [List.cons_append, lexFrom, continueLexeme, if_pos hc, ih hs]
    simp

theorem IntegerPart.digits (h : IntegerPart s) : Digits s := by
  rcases h with rfl | ⟨h, -⟩
  · exact ⟨by simp, by simp⟩
  · exact h

theorem FractionPart.mem (h : FractionPart s) (hc : c ∈ s) : (c.isDigit || c == '.') = true := by
  rcases h with rfl | ⟨d, hd, rfl⟩
  · simp at hc
  · rcases List.mem_cons.mp hc with rfl | hc
    · rfl
    · rw [hd.2 c hc]
      rfl

/-- The lexeme of a number stops before the exponent. -/
theorem lexFrom_mantissa {whole fraction : Str} (hw : IntegerPart whole)
    (hf : FractionPart fraction) (rest : Str) :
    lexFrom .nothing (whole ++ (fraction ++ rest)) =
      lexFrom (.number (whole ++ fraction)) rest := by
  obtain ⟨hne, hdigits⟩ := hw.digits
  cases whole with
  | nil => exact absurd rfl hne
  | cons c whole =>
    have hc := hdigits c (by simp)
    obtain ⟨hspace, halpha⟩ := digit_first hc
    have hstart : startLexeme c = ([], .number [c]) := by
      simp [startLexeme, hspace, halpha, hc]
    have hmem : ∀ c ∈ whole ++ fraction, (c.isDigit || c == '.') = true := by
      intro c hc
      rcases List.mem_append.mp hc with hc | hc
      · simp [hdigits c (by simp [hc])]
      · exact hf.mem hc
    have hassoc : c :: whole ++ (fraction ++ rest) = c :: (whole ++ fraction ++ rest) := by simp
    rw [hassoc, lexFrom, continueLexeme, hstart, lexFrom_number hmem]
    rfl

/-- The word that is begun becomes a lexeme. -/
theorem mem_tokensFrom_word (chars s : Str) :
    ∃ more, .word (chars ++ more) ∈ tokensFrom (.word chars) s := by
  induction s generalizing chars with
  | nil => exact ⟨[], by simp [tokensFrom, lexFrom, Pending.complete]⟩
  | cons c s ih =>
    rw [tokensFrom_cons]
    simp only [continueLexeme]
    split
    · obtain ⟨more, hmore⟩ := ih (chars ++ [c])
      exact ⟨c :: more, by simpa using hmore⟩
    · exact ⟨[], by simp⟩

/-- An exponent is a word of its own, and a foreign one. -/
theorem tokensFrom_exponent {e : Char} (he : e = 'e' ∨ e = 'E') (chars s : Str) :
    ∃ x ∈ tokensFrom (.number chars) (e :: s), x.foreign = true := by
  obtain ⟨more, hmore⟩ := mem_tokensFrom_word [e] s
  rw [tokensFrom_cons]
  rcases he with rfl | rfl
  · exact ⟨_, List.mem_append_right _ hmore, by simp [Lexeme.foreign, isLiteral]⟩
  · exact ⟨_, List.mem_append_right _ hmore, by simp [Lexeme.foreign, isLiteral]⟩

theorem Number.mem (h : Number n) (hc : c ∈ n) :
    c.isDigit = true ∨ c ∈ ['-', '+', '.', 'e', 'E'] := by
  obtain ⟨sign, whole, fraction, exponent, hsign, hwhole, hfraction, hexponent, rfl⟩ := h
  rcases List.mem_append.mp hc with hc | hc
  · rcases hsign with rfl | rfl
    · simp at hc
    · exact .inr (by simp_all)
  rcases List.mem_append.mp hc with hc | hc
  · exact .inl (hwhole.digits.2 c hc)
  rcases List.mem_append.mp hc with hc | hc
  · have hdot : c.isDigit = true ∨ c = '.' := by simpa using hfraction.mem hc
    exact hdot.imp id (by simp_all)
  · rcases hexponent with rfl | ⟨e, sign, d, he, hsign, hd, rfl⟩
    · simp at hc
    rcases List.mem_cons.mp hc with rfl | hc
    · exact .inr (by rcases he with rfl | rfl <;> simp)
    rcases List.mem_append.mp hc with hc | hc
    · exact .inr (by rcases hsign with rfl | rfl | rfl <;> simp_all)
    · exact .inl (hd.2 c hc)

theorem lexed_number (h : Number n) (hw : Spaces w) :
    Lexed (n ++ w) (· = .number n :: w.map .blank) := by
  have hquote : '"' ∉ n := fun hq => absurd (h.mem hq) (by decide)
  obtain ⟨hclosed, htokens⟩ := lexed_plain (lexFrom_plain rfl hquote) hw
  refine .inr ⟨hclosed, ?_⟩
  rw [htokens]
  obtain ⟨sign, whole, fraction, exponent, hsign, hwhole, hfraction, hexponent, rfl⟩ := h
  rcases hsign with rfl | rfl
  · have hmantissa :
        tokens (whole ++ (fraction ++ exponent)) =
          tokensFrom (.number (whole ++ fraction)) exponent := by
      simp only [tokens, tokensFrom, lexFrom_mantissa hwhole hfraction]
    rcases hexponent with rfl | ⟨e, sign, d, he, hsign, hd, rfl⟩
    · right
      rw [List.nil_append, hmantissa]
      simp [tokensFrom, lexFrom, Pending.complete]
    · left
      obtain ⟨x, hx, hf⟩ := tokensFrom_exponent he (whole ++ fraction) (sign ++ d)
      rw [List.nil_append, hmantissa]
      exact ⟨x, List.mem_append_left _ hx, hf⟩
  · left
    refine ⟨.bad '-', List.mem_append_left _ ?_, rfl⟩
    rw [tokens, List.singleton_append, tokensFrom_cons]
    exact List.mem_append_left _ (List.mem_singleton.mpr rfl)

end

/-- An item may stand at the place. -/
def Starts : Bool → Phase → Prop
  | true, ph => ph = .first ∨ ph = .comma
  | false, ph => ph ≠ .value

/-- What the lexemes of the symbol lead to. -/
def Recognised : Symbol → Str → Prop
  | .value, v =>
    ∀ w, Spaces w → Lexed (v ++ w) fun xs => ∀ n ph, ph ≠ .value → FollowsAll ⟨n, ph⟩ xs ⟨n, .value⟩
  | .item brace, s => Lexed s fun xs => ∀ n ph, Starts brace ph → FollowsAll ⟨n, ph⟩ xs ⟨n, .value⟩
  | .items brace, s =>
    Lexed s fun xs => ∀ n ph, Starts brace ph → FollowsAll ⟨n + 1, ph⟩ xs ⟨n + 1, .value⟩

section
variable {p q : Place} {s w : Str} {x : Lexeme} {xs ys : List Lexeme} {n : Nat} {ph : Phase}
    {wanted wanted' : List Lexeme → Prop}

theorem Lexed.mono (h : Lexed s wanted) (hw : ∀ xs, wanted xs → wanted' xs) : Lexed s wanted' := by
  rcases h with hesc | ⟨hclosed, hf | h⟩
  · exact .inl hesc
  · exact .inr ⟨hclosed, .inl hf⟩
  · exact .inr ⟨hclosed, .inr (hw _ h)⟩

theorem followsAll_blanks (hw : Spaces w) (p : Place) : FollowsAll p (w.map .blank) p := by
  induction w with
  | nil => exact .nil p
  | cons c w ih => exact .cons ⟨hw c (by simp), rfl⟩ (ih fun c hc => hw c (by simp [hc]))

/-- Items in brackets, with white space behind. -/
theorem recognised_brackets {brace : Bool} {wanted : List Lexeme → Prop} (h : Lexed s wanted)
    (hs : ∀ xs, wanted xs → ∀ n, ∃ ph, (ph = .first ∨ ph = .value) ∧
      FollowsAll ⟨n + 1, .first⟩ xs ⟨n + 1, ph⟩) :
    Recognised .value (leftBracket brace :: (s ++ [rightBracket brace])) := by
  intro w hw
  have hclosing : Lexed (s ++ rightBracket brace :: w) fun xs => ∀ n,
      FollowsAll ⟨n + 1, .first⟩ xs ⟨n, .value⟩ := by
    refine h.separate (.closing brace) (lexed_spaces hw) ?_
    intro xs ys hxs hys n
    subst hys
    obtain ⟨ph, hph, hxs⟩ := hs xs hxs n
    exact followsAll_append.mpr ⟨_, hxs, .cons ⟨hph, rfl⟩ (followsAll_blanks hw _)⟩
  have hassoc :
      leftBracket brace :: (s ++ [rightBracket brace]) ++ w =
        [leftBracket brace] ++ (s ++ rightBracket brace :: w) := by
    simp
  rw [hassoc]
  refine hclosing.after (lexes_leftBracket brace) ?_
  intro xs hxs n ph hph
  exact .cons ⟨hph, rfl⟩ (hxs n)

/-- The lexemes of a derivation. -/
theorem Derives.recognised {symbol : Symbol} (h : Derives symbol s) : Recognised symbol s := by
  induction h with
  | literal h =>
    intro w hw
    refine (lexed_literal h hw).mono ?_
    intro xs hxs n ph hph
    subst hxs
    exact .cons ⟨h, hph, rfl⟩ (followsAll_blanks hw _)
  | number h =>
    intro w hw
    refine (lexed_number h hw).mono ?_
    intro xs hxs n ph hph
    subst hxs
    exact .cons ⟨h, hph, rfl⟩ (followsAll_blanks hw _)
  | string h =>
    intro w hw
    refine (lexed_string h hw).mono ?_
    intro xs hxs n ph hph
    subst hxs
    exact .cons ⟨h, hw, hph, rfl⟩ (.nil _)
  | empty brace hw =>
    refine recognised_brackets (lexed_spaces hw) ?_
    intro xs hxs n
    subst hxs
    exact ⟨.first, .inl rfl, followsAll_blanks hw _⟩
  | brackets brace h ih =>
    simp only [Recognised] at ih
    refine recognised_brackets ih ?_
    intro xs hxs n
    refine ⟨.value, .inr rfl, hxs n .first ?_⟩
    cases brace with
    | true => exact .inl rfl
    | false => exact nofun
  | element hw hv hw' ih =>
    simp only [Recognised] at ih ⊢
    refine (ih _ hw').after (lexes_spaces hw) ?_
    intro xs hxs n ph hph
    exact followsAll_append.mpr ⟨_, followsAll_blanks hw _, hxs n ph hph⟩
  | @member w k w' e hw hk hw' he ih =>
    simp only [Recognised] at ih ⊢
    by_cases hq : '"' ∈ k
    · left
      intro rest
      rw [List.append_assoc]
      have := endsAtEscape_of_quote hk hq ('"' :: (w' ++ ':' :: (e ++ rest)))
      exact (lexes_spaces hw).endsAtEscape (by simpa using this)
    · have hkey := (lexes_spaces hw).append (lexes_key hq hw')
      have hassoc :
          w ++ '"' :: (k ++ '"' :: (w' ++ ':' :: e)) =
            w ++ '"' :: (k ++ '"' :: (w' ++ [':'])) ++ e := by simp
      rw [hassoc]
      refine ih.after hkey ?_
      intro xs hxs n ph hph
      refine followsAll_append.mpr ⟨⟨n, .key⟩, ?_, hxs n .key nofun⟩
      exact followsAll_append.mpr ⟨_, followsAll_blanks hw _, .cons ⟨hk, hw', hph, rfl⟩ (.nil _)⟩
  | one h ih =>
    simp only [Recognised] at ih ⊢
    refine ih.mono ?_
    intro xs hxs n ph hph
    exact hxs (n + 1) ph hph
  | @more brace s i hs hi ihs ihi =>
    simp only [Recognised] at ihs ihi ⊢
    refine ihs.separate .comma ihi ?_
    intro xs ys hxs hys n ph hph
    refine followsAll_append.mpr ⟨_, hxs n ph hph, .cons ⟨rfl, nofun, rfl⟩ (hys (n + 1) .comma ?_)⟩
    cases brace with
    | true => exact .inr rfl
    | false => exact nofun

end

section
variable {t : RealText R} {fs : List Frame} {xs : List Lexeme} {c : Char} {s text : Str}

theorem TakenFrom.not_foreign {x : Lexeme} (h : TakenFrom t fs xs) (hx : x ∈ xs) :
    x.foreign = false := by
  induction xs generalizing fs with
  | nil => simp at hx
  | cons y xs ih =>
    rcases List.mem_cons.mp hx with rfl | hx
    · exact h.1
    · exact ih h.2.2 hx

/-- A text that ends in a word ends with a letter or a digit. -/
theorem alphanum_of_word {chars : Str} (h : (lexFrom .nothing (s ++ [c])).2 = .word chars) :
    c.isAlphanum = true := by
  have hstart (h : (startLexeme c).2 = .word chars) : c.isAlphanum = true := by
    unfold startLexeme at h
    split_ifs at h with h₁ h₂
    simp [Char.isAlphanum, h₂]
  rw [lexFrom_append] at h
  generalize (lexFrom .nothing s).2 = p at h
  have h : (continueLexeme p c).2 = .word chars := h
  cases p with
  | nothing => exact hstart h
  | word before =>
    simp only [continueLexeme] at h
    split at h
    · next hc => exact hc
    · exact hstart h
  | number before =>
    simp only [continueLexeme] at h
    split at h
    · cases h
    · exact hstart h
  | string before =>
    simp only [continueLexeme] at h
    split at h <;> cases h
  | closed before ws =>
    simp only [continueLexeme] at h
    split at h
    · cases h
    · split at h
      · cases h
      · exact hstart h

/-- A document that ends in a foreign word is a number. -/
theorem number_of_foreign_word {chars : Str} (h : WellFormed text)
    (hword : (lexFrom .nothing text).2 = .word chars)
    (hf : isLiteral chars = false) : ∃ w n, Spaces w ∧ Number n ∧ text = w ++ n := by
  have last {s : Str} {c : Char} (heq : text = s ++ [c]) : c.isAlphanum = true := by
    rw [heq] at hword
    exact alphanum_of_word hword
  cases h with
  | @element w v w' hw hv hw' =>
    rcases List.eq_nil_or_concat w' with rfl | ⟨u, c, rfl⟩
    · cases hv with
      | literal h =>
        rw [List.append_nil, lexes_spaces hw, lexFrom_literal h] at hword
        cases hword
        rw [h] at hf
        cases hf
      | number h => exact ⟨w, v, hw, h, by simp⟩
      | @string k h => exact absurd (last (s := w ++ '"' :: k) (c := '"') (by simp)) (by decide)
      | @empty s brace h =>
        have := last (s := w ++ leftBracket brace :: s) (c := rightBracket brace) (by simp)
        cases brace <;> cases this
      | @brackets s brace h =>
        have := last (s := w ++ leftBracket brace :: s) (c := rightBracket brace) (by simp)
        cases brace <;> cases this
    · have hc : isspace c = true := isspace_of_isJsonSpace (hw' c (by simp))
      have halnum := last (s := w ++ (v ++ u)) (c := c) (by simp)
      rw [(notToken (.inl hc)).1] at halnum
      cases halnum

/-- The lexemes of a document that is taken fit, unless a string ended at an escaped quote. -/
theorem fits_of_wellFormed (ht : TakenFrom t [] (lexemes text)) (h : WellFormed text) :
    Fits text ∨ EndsAtEscape text := by
  have hlexed : Lexed text fun xs => ∀ n ph, Starts false ph → FollowsAll ⟨n, ph⟩ xs ⟨n, .value⟩ :=
    h.recognised
  rcases hlexed with hesc | ⟨hclosed, ⟨x, hx, hf⟩ | hfollows⟩
  · have := hesc []
    exact .inr (by simpa using this)
  · -- only the pending lexeme can be foreign
    have hmem : x ∈ (lexFrom .nothing text).2.complete := by
      rcases List.mem_append.mp hx with hx | hx
      · rw [ht.not_foreign hx] at hf
        cases hf
      · exact hx
    cases hp : (lexFrom .nothing text).2 with
    | word chars =>
      rw [hp] at hmem
      obtain rfl : x = .word chars := by simpa [Pending.complete] using hmem
      have hforeign : isLiteral chars = false := by simpa [Lexeme.foreign] using hf
      exact .inl (.inl (number_of_foreign_word h hp hforeign))
    | string chars => exact absurd hp (hclosed chars)
    | nothing => simp [hp, Pending.complete] at hmem
    | number chars => simp_all [Pending.complete, Lexeme.foreign]
    | closed chars ws => simp_all [Pending.complete, Lexeme.foreign]
  · exact .inl (.inr (hfollows 0 .first fun he => by cases he))

theorem FollowsAll.not_atEscape {p q : Place} {x : Lexeme} (h : FollowsAll p xs q) (hx : x ∈ xs) :
    ¬ x.AtEscape := by
  induction h with
  | nil p => simp at hx
  | @cons p q r y xs hy h ih =>
    rcases List.mem_cons.mp hx with rfl | hx
    · cases x with
      | text chars ws => exact hy.1.not_escaped
      | key chars ws => exact hy.1.not_escaped
      | _ => exact id
    · exact ih hx

/-- A string has a quote. -/
theorem quote_of_atEscape (h : EndsAtEscape text) : '"' ∈ text := by
  obtain ⟨x, hx, hesc⟩ := h
  have hchars : '"' ∈ x.chars := by
    cases x with
    | text chars ws => simp [Lexeme.chars]
    | key chars ws => simp [Lexeme.chars]
    | _ => exact hesc.elim
  have htext :
      (lexFrom .nothing text).1.flatMap Lexeme.chars ++ (lexFrom .nothing text).2.chars = text :=
        lexFrom_chars .nothing text
  rw [← htext]
  rcases List.mem_append.mp hx with hx | hx
  · exact List.mem_append_left _ (List.mem_flatMap.mpr ⟨x, hx, hchars⟩)
  · refine List.mem_append_right _ ?_
    cases hp : (lexFrom .nothing text).2 with
    | nothing => simp [hp, Pending.complete] at hx
    | word chars | number chars | closed chars ws =>
      rw [hp] at hx
      obtain rfl := List.mem_singleton.mp hx
      exact hchars
    | string chars => simp [Pending.chars]

theorem not_endsAtEscape_of_fits (h : Fits text) : ¬ EndsAtEscape text := by
  intro hesc
  rcases h with ⟨w, n, hw, hn, rfl⟩ | hfollows
  · rcases List.mem_append.mp (quote_of_atEscape hesc) with hq | hq
    · exact absurd (hw _ hq) (by decide)
    · exact absurd (hn.mem hq) (by decide)
  · obtain ⟨x, hx, hx'⟩ := hesc
    exact hfollows.not_atEscape hx hx'

/-- The lexemes of a text that the parser accepts fit together if and only if it is a document and
none of its strings ended at an escaped quote. -/
theorem accepted_fits_iff (t : RealText R) (fuel : Nat) (text : Str) {v : Json R}
    (h : parse t (fuel + 2) text = .ok v) :
    Fits text ↔ WellFormed text ∧ ¬ EndsAtEscape text := by
  have ht := (parse_taken_iff t fuel text).mp ⟨v, h⟩
  constructor
  · intro hf
    exact ⟨wellFormed_of_fits ht hf, not_endsAtEscape_of_fits hf⟩
  · intro ⟨hw, hesc⟩
    exact (fits_of_wellFormed ht hw).resolve_right hesc

end

-- The exception is there: the parser takes the wrong two strings out of this document.
example : WellFormed "[\"\\\"\", \"]\"]".toList ∧ EndsAtEscape "[\"\\\"\", \"]\"]".toList ∧
    parse wholeNumbers 2 "[\"\\\"\", \"]\"]".toList =
      .ok (.array [.string ['\\'], .string [',', ' ']]) := by
  refine ⟨?_, ⟨.text ['\\'] [], by decide, .escape (by simp) .nil⟩, rfl⟩
  have hquote : Derives .value ('"' :: (['\\', '"'] ++ ['"'])) := .string (.escape (by simp) .nil)
  have hbracket : Derives .value ('"' :: ([']'] ++ ['"'])) :=
    .string (.plain (by decide) (by decide) (by decide) .nil)
  have hspace : Spaces [' '] := by simp [Spaces, isJsonSpace]
  have hitems :=
    (Derives.one (.element spaces_nil hquote spaces_nil)).more (.element hspace hbracket spaces_nil)
  exact Derives.element spaces_nil (.brackets false hitems) spaces_nil

theorem number_digit {c : Char} (hc : c.isDigit = true) (hne : c ≠ '0') : Number [c] :=
  ⟨[], [c], [], [], .inl rfl, .inr ⟨⟨by simp, by simpa using hc⟩, by simpa using hne⟩, .inl rfl,
    .inl rfl, rfl⟩

theorem wellFormed_two_elements :
    parse wholeNumbers 2 "[1,2]".toList = .ok (.array [.integer 1, .integer 2]) ∧
    WellFormed "[1,2]".toList := by
  have hparse :
      parse wholeNumbers 2 "[1,2]".toList = .ok (.array [.integer 1, .integer 2]) := by rfl
  refine ⟨hparse, ((accepted_fits_iff wholeNumbers 0 "[1,2]".toList hparse).mp (.inr ?_)).1⟩
  have htokens :
      tokens "[1,2]".toList = [.opening false, .number ['1'], .comma, .number ['2'],
        .closing false] := by rfl
  rw [htokens]
  refine .cons (q := ⟨1, .first⟩) ⟨nofun, rfl⟩ ?_
  refine .cons (q := ⟨1, .value⟩) ⟨number_digit rfl (by decide), nofun, rfl⟩ ?_
  refine .cons (q := ⟨1, .comma⟩) ⟨rfl, nofun, rfl⟩ ?_
  refine .cons (q := ⟨1, .value⟩) ⟨number_digit rfl (by decide), nofun, rfl⟩ ?_
  exact .cons ⟨.inr rfl, rfl⟩ (.nil _)

/-- Two numbers without a comma are accepted as two elements. -/
theorem missing_comma_accepted :
    parse wholeNumbers 2 "[1 2]".toList = .ok (.array [.integer 1, .integer 2]) ∧
    ¬ WellFormed "[1 2]".toList := by
  have hparse :
      parse wholeNumbers 2 "[1 2]".toList = .ok (.array [.integer 1, .integer 2]) := by rfl
  refine ⟨hparse, ?_⟩
  intro h
  have ht := (parse_taken_iff wholeNumbers 0 "[1 2]".toList).mp ⟨_, hparse⟩
  have htokens :
      tokens "[1 2]".toList = [.opening false, .number ['1'], .blank ' ', .number ['2'],
        .closing false] := by rfl
  rcases fits_of_wellFormed ht h with (⟨w, n, hw, hn, heq⟩ | hfollows) | ⟨x, hx, hesc⟩
  · have hmem : '[' ∈ w ++ n := by simp [← heq]
    rcases List.mem_append.mp hmem with hmem | hmem
    · exact absurd (hw _ hmem) (by decide)
    · exact absurd (hn.mem hmem) (by decide)
  · rw [htokens] at hfollows
    cases hfollows with
    | cons hopening hfollows =>
      cases hfollows with
      | cons hone hfollows =>
        cases hfollows with
        | cons hblank hfollows =>
          cases hfollows with
          | cons htwo hfollows =>
            obtain ⟨-, hphase, -⟩ := htwo
            rw [hblank.2, hone.2.2] at hphase
            exact hphase rfl
  · rw [htokens] at hx
    have hcases : x = .opening false ∨ x = .number ['1'] ∨ x = .blank ' ' ∨ x = .number ['2'] ∨
        x = .closing false := by
      simpa using hx
    rcases hcases with rfl | rfl | rfl | rfl | rfl <;> exact hesc

end Gpcl.Json
