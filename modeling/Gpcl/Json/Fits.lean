import Gpcl.Json.Grammar

/-! # Lexemes that fit together

The parser checks the kinds of brackets, the keys and the conversions of numbers. What it does not
check is which lexeme stands behind which: two values without a comma, a comma before a bracket, a
key without a value, a second value or nothing at all outside the brackets. A text that is taken and
whose lexemes follow one another as in the grammar is a document. -/
namespace Gpcl.Json
open ValueBuilder

variable {R : Type}

/-- What the end of the text makes of the pending lexeme. A string without its second quote is
none. -/
def Pending.complete : Pending → List Lexeme
  | .nothing => []
  | .word chars => [.word chars]
  | .number chars => [.number chars]
  | .string _ => [.bad '"']
  | .closed chars ws => [.text chars ws]

def tokensFrom (p : Pending) (text : Str) : List Lexeme :=
  (lexFrom p text).1 ++ (lexFrom p text).2.complete

/-- The lexemes of a text, with the one that the parser leaves pending. -/
def tokens (text : Str) : List Lexeme := tokensFrom .nothing text

/-- What stands before a place: a bracket or the start of the text, a comma, a key, or a value. -/
inductive Phase
  | first
  | comma
  | key
  | value
  deriving DecidableEq

/-- The number of open brackets, and what stands before. -/
structure Place where
  depth : Nat
  phase : Phase

/-- The lexeme may stand at the first place, and the second is the one behind it. -/
def Follows (p : Place) : Lexeme → Place → Prop
  | .blank c, q => isJsonSpace c = true ∧ q = p
  | .comma, q => p.phase = .value ∧ p.depth ≠ 0 ∧ q = ⟨p.depth, .comma⟩
  | .word chars, q => isLiteral chars = true ∧ p.phase ≠ .value ∧ q = ⟨p.depth, .value⟩
  | .number chars, q => Number chars ∧ p.phase ≠ .value ∧ q = ⟨p.depth, .value⟩
  | .text chars ws, q => StringBody chars ∧ Spaces ws ∧ p.phase ≠ .value ∧ q = ⟨p.depth, .value⟩
  | .key chars ws, q =>
    StringBody chars ∧ Spaces ws ∧ (p.phase = .first ∨ p.phase = .comma) ∧ q = ⟨p.depth, .key⟩
  | .opening _, q => p.phase ≠ .value ∧ q = ⟨p.depth + 1, .first⟩
  | .closing _, q => (p.phase = .first ∨ p.phase = .value) ∧ q = ⟨p.depth - 1, .value⟩
  | .bad _, _ => False

inductive FollowsAll : Place → List Lexeme → Place → Prop
  | nil (p : Place) : FollowsAll p [] p
  | cons {p q r : Place} {x : Lexeme} {xs : List Lexeme} : Follows p x q → FollowsAll q xs r →
    FollowsAll p (x :: xs) r

/-- The lexemes of the text fit together to one value. Where the text is a number, its exponent is
another lexeme. -/
def Fits (text : Str) : Prop :=
  (∃ w n, Spaces w ∧ Number n ∧ text = w ++ n) ∨ FollowsAll ⟨0, .first⟩ (tokens text) ⟨0, .value⟩

/-- No lexeme is foreign or out of place, and no bracket stays open. -/
def TakenFrom (t : RealText R) : List Frame → List Lexeme → Prop
  | fs, [] => fs = []
  | fs, x :: xs => x.foreign = false ∧ InPlace t fs x ∧ TakenFrom t (openedBy fs x) xs

theorem Opens.taken_iff {t : RealText R} {stack : ValueBuilder R} {fs : List Frame}
    (h : Opens stack fs) (xs : List Lexeme) :
    (∃ v, (xs.foldlM (ValueBuilder.handleLexeme t) stack).bind ValueBuilder.getValue = .ok v) ↔
    TakenFrom t fs xs := by
  induction xs generalizing stack fs with
  | nil =>
    cases h with
    | bottom v => exact iff_of_true ⟨v, rfl⟩ rfl
    | array xs keyed h =>
      refine iff_of_false ?_ nofun
      intro ⟨v, hv⟩
      cases h <;> cases hv
    | object fields key h =>
      refine iff_of_false ?_ nofun
      intro ⟨v, hv⟩
      cases h <;> cases hv
  | cons x xs ih =>
    rw [List.foldlM_cons, TakenFrom]
    cases hf : x.foreign with
    | true =>
      rw [handleLexeme_foreign hf]
      exact iff_of_false (fun ⟨v, hv⟩ => nomatch hv) (fun h => nomatch h.1)
    | false =>
      by_cases hx : InPlace t fs x
      · obtain ⟨stack', hstack, h'⟩ := h.handleLexeme hf hx
        rw [hstack]
        exact (ih h').trans ⟨fun hxs => ⟨rfl, hx, hxs⟩, fun h => h.2.2⟩
      · obtain ⟨e, hstack, -⟩ := h.handleLexeme_stray hf hx
        rw [hstack]
        exact iff_of_false (fun ⟨v, hv⟩ => nomatch hv) (fun h => hx h.2.1)

/-- The parser returns a value if and only if it takes the lexemes. -/
theorem parse_taken_iff (t : RealText R) (fuel : Nat) (text : Str) :
    (∃ v, parse t (fuel + 2) text = .ok v) ↔ TakenFrom t [] (lexemes text) := by
  rw [parse_lexemes]
  exact Opens.taken_iff (.bottom .null) (lexemes text)

/-- The characters of a lexeme. -/
def Lexeme.chars : Lexeme → Str
  | .blank c | .bad c => [c]
  | .comma => [',']
  | .word chars | .number chars => chars
  | .text chars ws => '"' :: (chars ++ '"' :: ws)
  | .key chars ws => '"' :: (chars ++ '"' :: (ws ++ [':']))
  | .opening brace => [leftBracket brace]
  | .closing brace => [rightBracket brace]

def Pending.chars : Pending → Str
  | .nothing => []
  | .word chars | .number chars => chars
  | .string chars => '"' :: chars
  | .closed chars ws => '"' :: (chars ++ '"' :: ws)

section
variable {p q : Pending} {c : Char} {text : Str}

theorem startLexeme_chars (c : Char) :
    (startLexeme c).1.flatMap Lexeme.chars ++ (startLexeme c).2.chars = [c] := by
  unfold startLexeme
  split_ifs with
    h₁ h₂ h₃ h₄ h₅ h₆ h₇ h₈ h₉ <;> simp_all [Lexeme.chars, Pending.chars, leftBracket, rightBracket]

theorem continueLexeme_chars (p : Pending) (c : Char) :
    (continueLexeme p c).1.flatMap Lexeme.chars ++ (continueLexeme p c).2.chars =
      p.chars ++ [c] := by
  have ended (x : Lexeme) :
      (x :: (startLexeme c).1).flatMap Lexeme.chars ++ (startLexeme c).2.chars =
        x.chars ++ [c] := by
    rw [List.flatMap_cons, List.append_assoc, startLexeme_chars]
  cases p with
  | nothing => exact startLexeme_chars c
  | word chars =>
    simp only [continueLexeme]
    split
    · rfl
    · exact ended _
  | number chars =>
    simp only [continueLexeme]
    split
    · rfl
    · exact ended _
  | string chars =>
    simp only [continueLexeme]
    split
    · next h => simp [Pending.chars, h]
    · rfl
  | closed chars ws =>
    simp only [continueLexeme]
    split
    · simp [Pending.chars]
    · split
      · next h => simp [Pending.chars, Lexeme.chars, h]
      · exact ended _

/-- The lexemes and the pending one are the text again. -/
theorem lexFrom_chars (p : Pending) (text : Str) :
    (lexFrom p text).1.flatMap Lexeme.chars ++ (lexFrom p text).2.chars = p.chars ++ text := by
  induction text generalizing p with
  | nil => simp [lexFrom]
  | cons c text ih =>
    calc (lexFrom p (c :: text)).1.flatMap Lexeme.chars ++ (lexFrom p (c :: text)).2.chars
        = (continueLexeme p c).1.flatMap Lexeme.chars ++
            ((continueLexeme p c).2.chars ++ text) := by
          rw [lexFrom, List.flatMap_append, List.append_assoc, ih]
      _ = p.chars ++ c :: text := by
          rw [← List.append_assoc, continueLexeme_chars, List.append_assoc]
          rfl

end

/-! ## Behind open brackets -/

/-- Where the symbol follows, there are items. -/
def Awaits (symbol : Symbol) (brace : Bool) (s : Str) : Prop :=
  ∀ u, Derives symbol u → Derives (.items brace) (s ++ u)

/-- What stands between a bracket and a place in it. -/
def Inside (brace : Bool) : Phase → Str → Prop
  | .first, s => Spaces s
  | .comma, s => Awaits (.item brace) brace s
  | .key, s => brace = true ∧ Awaits (.item false) brace s
  | .value, s => Derives (.items brace) s

/-- What stands before a place outside of all brackets. -/
def Outermost : Phase → Str → Prop
  | .first, s => Spaces s
  | .comma, _ | .key, _ => False
  | .value, s => WellFormed s

/-- What stands before a place, bracket by bracket. -/
inductive Layers : List Frame → Phase → Str → Prop
  | bottom {ph : Phase} {s : Str} : Outermost ph s → Layers [] ph s
  | inside {f : Frame} {fs : List Frame} {outer ph : Phase} {s s' : Str} : Layers fs outer s →
    outer ≠ .value →
    Inside f.brace ph s' → (f.keyed = true → ph = .key) →
      Layers (f :: fs) ph (s ++ leftBracket f.brace :: s')

section
variable {brace keyed : Bool} {fs : List Frame} {ph : Phase} {s w v k : Str} {symbol : Symbol}

theorem Awaits.space (h : Awaits (.item brace) keyed s) (hw : Spaces w) :
    Awaits (.item brace) keyed (s ++ w) := by
  intro u hu
  rw [List.append_assoc]
  exact h _ (hu.space_item hw)

theorem awaits_first (hw : Spaces w) : Awaits (.item brace) brace w := by
  intro u hu
  exact .one (hu.space_item hw)

theorem Inside.space (h : Inside brace ph s) (hw : Spaces w) : Inside brace ph (s ++ w) := by
  cases ph with
  | first => exact spaces_append.mpr ⟨h, hw⟩
  | comma => exact Awaits.space h hw
  | key => exact ⟨h.1, h.2.space hw⟩
  | value => exact Derives.items_space h hw

theorem Inside.comma (h : Inside brace .value s) : Inside brace .comma (s ++ [',']) := by
  intro u hu
  rw [List.append_assoc]
  exact .more h hu

theorem Inside.key (h : Inside true ph s) (hph : ph = .first ∨ ph = .comma) (hk : StringBody k)
    (hw : Spaces w) :
    Inside true .key (s ++ '"' :: (k ++ '"' :: (w ++ [':']))) := by
  have hs : Awaits (.item true) true s := by
    rcases hph with rfl | rfl
    · exact awaits_first h
    · exact h
  refine ⟨rfl, ?_⟩
  intro u hu
  have := hs _ (.member spaces_nil hk hw hu)
  simpa using this

/-- A value needs a key before it in an object, and none in an array. -/
theorem Inside.value (h : Inside brace ph s) (hph : ph ≠ .value) (hkey : brace = true → ph = .key)
    (hv : Derives .value v) (hw : Spaces w) : Inside brace .value (s ++ (v ++ w)) := by
  have hs : Awaits (.item false) brace s := by
    cases brace with
    | true =>
      obtain rfl := hkey rfl
      exact h.2
    | false =>
      cases ph with
      | first => exact awaits_first h
      | comma => exact h
      | key => cases h.1
      | value => exact absurd rfl hph
  exact hs _ (.element spaces_nil hv hw)

theorem Inside.closing (h : Inside brace ph s) (hph : ph = .first ∨ ph = .value) :
    Derives .value (leftBracket brace :: (s ++ [rightBracket brace])) := by
  rcases hph with rfl | rfl
  · exact .empty brace h
  · exact .brackets brace h

theorem Layers.space (h : Layers fs ph s) (hw : Spaces w) : Layers fs ph (s ++ w) := by
  cases h with
  | bottom h =>
    refine .bottom ?_
    cases ph with
    | first => exact spaces_append.mpr ⟨h, hw⟩
    | comma => exact h
    | key => exact h
    | value => exact Derives.element_space h hw
  | inside h hne hin hkey =>
    rw [List.append_assoc]
    exact .inside h hne (hin.space hw) hkey

theorem Layers.comma (h : Layers fs .value s) (hfs : fs ≠ []) : Layers fs .comma (s ++ [',']) := by
  cases h with
  | bottom h => exact absurd rfl hfs
  | inside h hne hin hkey =>
    rw [List.append_assoc]
    exact .inside h hne hin.comma fun hkeyed => nomatch hkey hkeyed

theorem Layers.key (h : Layers (⟨true, keyed⟩ :: fs) ph s) (hph : ph = .first ∨ ph = .comma)
    (hk : StringBody k) (hw : Spaces w) (keyed' : Bool) :
    Layers (⟨true, keyed'⟩ :: fs) .key (s ++ '"' :: (k ++ '"' :: (w ++ [':']))) := by
  cases h with
  | inside h hne hin hkey =>
    rw [List.append_assoc]
    exact .inside h hne (hin.key hph hk hw) fun _ => rfl

theorem Layers.opening (h : Layers fs ph s) (hph : ph ≠ .value) (brace : Bool) :
    Layers (⟨brace, false⟩ :: fs) .first (s ++ [leftBracket brace]) :=
  .inside h hph spaces_nil nofun

theorem Layers.value (h : Layers fs ph s) (hph : ph ≠ .value) (ht : TakesValue fs)
    (hv : Derives .value v) (hw : Spaces w) :
    Layers (fill fs) .value (s ++ (v ++ w)) := by
  cases h with
  | bottom h =>
    refine .bottom ?_
    cases ph with
    | first => exact .element h hv hw
    | comma => exact h.elim
    | key => exact h.elim
    | value => exact absurd rfl hph
  | inside h hne hin hkey =>
    rw [List.append_assoc]
    exact .inside h hne (hin.value hph (fun hbrace => hkey (ht hbrace)) hv hw) nofun

/-- A closing bracket makes a value of what it closes. -/
theorem Layers.closing (h : Layers (⟨brace, keyed⟩ :: fs) ph s) (hph : ph = .first ∨ ph = .value)
    (ht : TakesValue fs) :
    Layers (fill fs) .value (s ++ [rightBracket brace]) := by
  cases h with
  | inside h hne hin hkey =>
    have := h.value hne ht (hin.closing hph) spaces_nil
    simpa using this

end

/-- The place is reached behind these brackets and characters. -/
structure Reaches (fs : List Frame) (p : Place) (s : Str) : Prop where
  depth : p.depth = fs.length
  layers : Layers fs p.phase s

/-- A value that is one lexeme. -/
def Lexeme.scalar : Lexeme → Bool
  | .word _ | .number _ | .text _ _ => true
  | _ => false

section
variable {t : RealText R} {fs : List Frame} {p q : Place} {s : Str} {x : Lexeme}
    {xs ys : List Lexeme}

theorem fill_length (fs : List Frame) : (fill fs).length = fs.length := by
  cases fs <;> rfl

theorem Reaches.value {v w : Str} (h : Reaches fs p s) (hph : p.phase ≠ .value) (ht : TakesValue fs)
    (hv : Derives .value v) (hw : Spaces w) : Reaches (fill fs) ⟨p.depth, .value⟩ (s ++ (v ++ w)) :=
  ⟨h.depth.trans (fill_length fs).symm, h.layers.value hph ht hv hw⟩

theorem Reaches.scalar (h : Reaches fs p s) (hs : x.scalar = true) (hx : Follows p x q)
    (ht : TakesValue fs) :
    Reaches (fill fs) q (s ++ x.chars) := by
  cases x with
  | word chars =>
    obtain ⟨hl, hph, rfl⟩ := hx
    have := h.value hph ht (.literal hl) spaces_nil
    simpa [Lexeme.chars] using this
  | number chars =>
    obtain ⟨hn, hph, rfl⟩ := hx
    have := h.value hph ht (.number hn) spaces_nil
    simpa [Lexeme.chars] using this
  | text chars ws =>
    obtain ⟨hb, hw, hph, rfl⟩ := hx
    have := h.value hph ht (.string hb) hw
    simpa [Lexeme.chars] using this
  | _ => cases hs

/-- One lexeme that is in place and follows. -/
theorem Reaches.step (h : Reaches fs p s) (hp : InPlace t fs x) (hx : Follows p x q) :
    Reaches (openedBy fs x) q (s ++ x.chars) := by
  cases x with
  | blank c =>
    obtain ⟨hc, rfl⟩ := hx
    have hw : Spaces [c] := by simpa [Spaces] using hc
    exact ⟨h.depth, h.layers.space hw⟩
  | comma =>
    obtain ⟨hph, hdepth, rfl⟩ := hx
    have hfs : fs ≠ [] := by
      intro hnil
      exact hdepth (by rw [h.depth, hnil]; rfl)
    have hlayers := h.layers
    rw [hph] at hlayers
    exact ⟨h.depth, hlayers.comma hfs⟩
  | word chars => exact h.scalar rfl hx (hp hx.1)
  | number chars => exact h.scalar rfl hx hp.2
  | text chars ws => exact h.scalar rfl hx hp
  | key chars ws =>
    obtain ⟨keyed, rest, rfl⟩ := hp
    obtain ⟨hb, hw, hph, rfl⟩ := hx
    exact ⟨h.depth, h.layers.key hph hb hw _⟩
  | opening brace =>
    obtain ⟨hph, rfl⟩ := hx
    exact ⟨congrArg (· + 1) h.depth, h.layers.opening hph brace⟩
  | closing brace =>
    obtain ⟨keyed, rest, rfl, ht⟩ := hp
    obtain ⟨hph, rfl⟩ := hx
    refine ⟨?_, h.layers.closing hph ht⟩
    simp [h.depth, openedBy, fill_length]
  | bad c => exact hx.elim

theorem followsAll_append :
    FollowsAll p (xs ++ ys) q ↔ ∃ r, FollowsAll p xs r ∧ FollowsAll r ys q := by
  constructor
  · intro h
    induction xs generalizing p with
    | nil => exact ⟨p, .nil p, h⟩
    | cons x xs ih =>
      cases h with
      | cons hx h =>
        obtain ⟨r, hxs, hys⟩ := ih h
        exact ⟨r, .cons hx hxs, hys⟩
  · intro ⟨r, hxs, hys⟩
    induction hxs with
    | nil p => exact hys
    | cons hx hxs ih => exact .cons hx (ih hys)

/-- Behind the lexemes of a text that is taken. -/
theorem Reaches.run (h : Reaches fs p s) (ht : TakenFrom t fs xs) (hxs : FollowsAll p xs q) :
    Reaches [] q (s ++ xs.flatMap Lexeme.chars) := by
  induction hxs generalizing fs s with
  | nil p =>
    obtain rfl : fs = [] := ht
    simpa using h
  | cons hx hxs ih =>
    obtain ⟨-, hp, ht⟩ := ht
    have := ih (h.step hp hx) ht
    simpa using this

/-- The pending lexeme, outside of all brackets. -/
theorem Reaches.complete {pending : Pending} (h : Reaches [] p s)
    (hf : FollowsAll p pending.complete q) :
    Reaches [] q (s ++ pending.chars) := by
  have single {x : Lexeme} (hs : x.scalar = true) (hf : FollowsAll p [x] q) :
      Reaches [] q (s ++ x.chars) := by
    cases hf with
    | cons hx hf =>
      cases hf with
      | nil => exact h.scalar hs hx trivial
  cases pending with
  | nothing =>
    cases hf with
    | nil => simpa [Pending.chars] using h
  | word chars => exact single rfl hf
  | number chars => exact single rfl hf
  | closed chars ws => exact single rfl hf
  | string chars =>
    cases hf with
    | cons hx hf => exact hx.elim

/-- A text that is taken and whose lexemes fit is a document. -/
theorem wellFormed_of_fits {text : Str} (ht : TakenFrom t [] (lexemes text)) (hf : Fits text) :
    WellFormed text := by
  rcases hf with ⟨w, n, hw, hn, rfl⟩ | hf
  · have := Derives.element hw (.number hn) spaces_nil
    simpa [WellFormed] using this
  · obtain ⟨r, hxs, hend⟩ := followsAll_append.mp hf
    have hstart : Reaches [] ⟨0, .first⟩ [] := ⟨rfl, .bottom spaces_nil⟩
    have hchars := lexFrom_chars .nothing text
    have hreached := (hstart.run ht hxs).complete hend
    rw [List.append_assoc, lexemes, hchars] at hreached
    cases hreached.layers with
    | bottom h => exact h

end

end Gpcl.Json
