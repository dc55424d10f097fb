import Gpcl.Json.Parser

/-! # Round trip

Reading back what was printed. Each part of a printed text takes the parser from the
indeterminate state back to it, with the builder having handled the value; only a text
that ends in a literal, a number or a string needs to know what stands behind it. -/
namespace Gpcl.Json

variable {R σ : Type}

/-- What the types of the source guarantee: 64-bit integers, and maps in key order. -/
inductive Typed : Json R → Prop
  | null : Typed .null
  | boolean (b : Bool) : Typed (.boolean b)
  | integer {i : Int} : -2 ^ 63 ≤ i → i < 2 ^ 63 → Typed (.integer i)
  | real (r : R) : Typed (.real r)
  | string (s : Str) : Typed (.string s)
  | array {xs : List (Json R)} : (∀ x ∈ xs, Typed x) → Typed (.array xs)
  | object {fields : List (Str × Json R)} : (fields.map Prod.fst).Pairwise (· < ·) →
    (∀ f ∈ fields, Typed f.2) →
    Typed (.object fields)

/-- A value as the source can hold it. -/
structure Document (R : Type) where
  content : Json R
  typed : content.Typed

def Unescaped (s : Str) : Prop := ∀ c ∈ s, c ≠ '"' ∧ c ≠ '\\'

/-- Values without reals, negative integers, characters to escape and empty keys. -/
inductive Plain : Json R → Prop
  | null : Plain .null
  | boolean (b : Bool) : Plain (.boolean b)
  | integer {i : Int} : 0 ≤ i → Plain (.integer i)
  | string {s : Str} : Unescaped s → Plain (.string s)
  | array {xs : List (Json R)} : (∀ x ∈ xs, Plain x) → Plain (.array xs)
  | object {fields : List (Str × Json R)} : (∀ f ∈ fields, f.1 ≠ [] ∧ Unescaped f.1) →
    (∀ f ∈ fields, Plain f.2) →
    Plain (.object fields)

def isContainer : Json R → Bool
  | .array _ | .object _ => true
  | _ => false

/-- Characters that the parser passes over between two values. -/
def skipped (c : Char) : Bool := isspace c || c == ','

/-- The indent consists of skipped characters. -/
def PrintStyle.Skipped : PrintStyle → Prop
  | .compressed => True
  | .pretty item => ∀ c ∈ item, skipped c

/-- What stands behind a value inside a container: spaces, then a comma or a bracket. -/
inductive Follow : Str → Prop
  | stop {c : Char} {rest : Str} : c = ',' ∨ c = ']' ∨ c = '\x7d' → Follow (c :: rest)
  | space {c : Char} {rest : Str} : isspace c → Follow rest → Follow (c :: rest)

theorem isspace_cases {c : Char} (h : isspace c) :
    c = ' ' ∨ c = '\t' ∨ c = '\n' ∨ c = '\x0b' ∨ c = '\x0c' ∨ c = '\r' := by
  simpa [isspace, or_assoc] using h

theorem Follow.skip {ws rest : Str} (h : Follow rest) (hws : ∀ c ∈ ws, skipped c) :
    Follow (ws ++ rest) := by
  induction ws with
  | nil => exact h
  | cons c ws ih =>
    have hc : isspace c ∨ c = ',' := by simpa [skipped] using hws c List.mem_cons_self
    rcases hc with hc | hc
    · exact .space hc (ih fun c hc => hws c (List.mem_cons_of_mem _ hc))
    · exact .stop (.inl hc)

theorem newline_skipped {st : PrintStyle} (h : st.Skipped) (n : Nat) :
    ∀ c ∈ newline st n, skipped c := by
  intro c hc
  cases st with
  | compressed => exact absurd hc List.not_mem_nil
  | pretty item =>
    rcases List.mem_cons.mp hc with rfl | hc
    · rfl
    · obtain ⟨l, hl, hcl⟩ := List.mem_flatten.mp hc
      exact h c (List.eq_of_mem_replicate hl ▸ hcl)

theorem space_skipped (st : PrintStyle) : ∀ c ∈ space st, skipped c := by
  intro c hc
  cases st with
  | compressed => exact absurd hc List.not_mem_nil
  | pretty item => rw [List.mem_singleton.mp hc]; rfl

theorem quoted_unescaped {s : Str} (h : Unescaped s) : quoted s = '"' :: (s ++ ['"']) := by
  have hs : s.flatMap (fun c => if c = '"' ∨ c = '\\' then ['\\', c] else [c]) = s := by
    induction s with
    | nil => rfl
    | cons c s ih =>
      have hc := h c List.mem_cons_self
      rw [List.flatMap_cons, if_neg (not_or.mpr hc), ih fun c hc => h c (List.mem_cons_of_mem _ hc)]
      rfl
  rw [quoted, hs]

theorem readInteger_toDigits {n : Nat} (h : n < 2 ^ 63) :
    readInteger (Nat.toDigits 10 n) = some (n : Int) := by
  have hd : ∀ c ∈ Nat.toDigits 10 n, c.isDigit :=
    fun c hc => Nat.isDigit_of_mem_toDigits (by decide) (by decide) hc
  have hv : Nat.ofDigitChars 10 (Nat.toDigits 10 n) 0 = n := Nat.ofDigitChars_ten_toDigits
  have hne : Nat.toDigits 10 n ≠ [] := Nat.toDigits_ne_nil
  generalize Nat.toDigits 10 n = ds at hd hv hne
  obtain ⟨c, ds, rfl⟩ := List.exists_cons_of_ne_nil hne
  have hc := hd c List.mem_cons_self
  have hsp : (c :: ds).dropWhile isspace = c :: ds := by
    refine List.dropWhile_cons_of_neg ?_
    intro hs
    rcases isspace_cases hs with rfl | rfl | rfl | rfl | rfl | rfl <;> exact absurd hc (by decide)
  have hm : c ≠ '-' := fun he => absurd (he ▸ hc) (by decide)
  have hp : c ≠ '+' := fun he => absurd (he ▸ hc) (by decide)
  have hall : (c :: ds).all Char.isDigit := List.all_eq_true.mpr hd
  rw [readInteger, hsp]
  split
  rename_i negative digits heq
  have : (negative, digits) = (false, c :: ds) := by
    rw [← heq]
    split
    · rename_i h; exact absurd (List.cons.inj h).1 hm
    · rename_i h; exact absurd (List.cons.inj h).1 hp
    · rfl
  cases this
  simp only [hv, Bool.false_eq_true, if_false]
  rw [if_pos ⟨List.cons_ne_nil _ _, hall, by omega, by omega⟩]

section parser
open Gpcl.Json.Parser
variable {t : RealText R} {visit : Visitor R σ} {fuel : Nat} {ch : Char} {rest : Str}
    {st st' : ParsingState} {v v' : σ}

theorem put_consumed (h : putState t visit ch v st = .ok ⟨true, st', v'⟩) :
    put t visit (fuel + 1) (ch :: rest) st v = put t visit (fuel + 1) rest st' v' := by
  rw [put, putChar, h]
  rfl

/-- A skipped character or a closing bracket is consumed by the indeterminate state, if the visitor
takes the event. -/
theorem putIndeterminate_consumed {o : Offer σ}
    (hc : isspace ch ∨ ch = ',' ∨ ch = ']' ∨ ch = '\x7d')
    (h : putIndeterminate visit ch v = .ok o) : o.consumed = true := by
  rcases hc with hc | rfl | rfl | rfl
  · rw [putIndeterminate, if_pos hc] at h
    cases h; rfl
  · cases h; rfl
  · cases hv : visit v .endArrayEvent with
    | error e =>
      rw [show putIndeterminate visit ']' v = visit v .endArrayEvent >>= _ from rfl, hv] at h;
        cases h
    | ok w =>
      rw [show putIndeterminate visit ']' v = visit v .endArrayEvent >>= _ from rfl, hv] at h;
        cases h; rfl
  · cases hv : visit v .endObjectEvent with
    | error e =>
      rw [show putIndeterminate visit '\x7d' v = visit v .endObjectEvent >>= _ from rfl, hv] at h;
        cases h
    | ok w =>
      rw [show putIndeterminate visit '\x7d' v = visit v .endObjectEvent >>= _ from rfl, hv] at h;
        cases h; rfl

/-- A character that ends a token is offered to the indeterminate state next. -/
theorem put_again (hc : isspace ch ∨ ch = ',' ∨ ch = ']' ∨ ch = '\x7d')
    (h : putState t visit ch v st = .ok ⟨false, .indeterminate, v'⟩) :
    put t visit (fuel + 2) (ch :: rest) st v =
      put t visit (fuel + 2) (ch :: rest) .indeterminate v' := by
  have hchar :
      putChar t visit ch (fuel + 2) st v = putChar t visit ch (fuel + 2) .indeterminate v' := by
    rw [putChar, h]
    show putChar t visit ch (fuel + 1) .indeterminate v' = _
    rw [putChar, putChar]
    show putIndeterminate visit ch v' >>= _ = putIndeterminate visit ch v' >>= _
    cases ho : putIndeterminate visit ch v' with
    | error e => rfl
    | ok o =>
      show (if o.consumed = true then _ else _) = (if o.consumed = true then _ else _)
      rw [if_pos (putIndeterminate_consumed hc ho), if_pos (putIndeterminate_consumed hc ho)]
  rw [put, put, hchar]

/-- A digit is neither white space nor a letter. -/
theorem digit_first (h : ch.isDigit) : isspace ch = false ∧ ch.isAlpha = false := by
  constructor
  · rw [Bool.eq_false_iff]
    intro hs
    rcases isspace_cases hs with rfl | rfl | rfl | rfl | rfl | rfl <;> exact absurd h (by decide)
  · change (decide (ch.val ≥ 'A'.val ∧ ch.val ≤ 'Z'.val) || decide (ch.val ≥ 'a'.val) &&
      decide (ch.val ≤ 'z'.val)) = false
    rw [Char.isDigit] at h
    grind

theorem putIndeterminate_digit (h : ch.isDigit) :
    putIndeterminate visit ch v = .ok ⟨true, .parsingNumber [ch], v⟩ := by
  obtain ⟨hsp, hal⟩ := digit_first h
  rw [putIndeterminate, if_neg (ne_true_of_eq_false hsp), if_neg (ne_true_of_eq_false hal),
    if_pos (by rw [h]; rfl)]

theorem put_skip {ws : Str} (h : ∀ c ∈ ws, skipped c) :
    put t visit (fuel + 1) (ws ++ rest) .indeterminate v =
      put t visit (fuel + 1) rest .indeterminate v := by
  induction ws with
  | nil => rfl
  | cons c ws ih =>
    have hc : isspace c ∨ c = ',' := by simpa [skipped] using h c List.mem_cons_self
    have hput : putState t visit c v .indeterminate = .ok ⟨true, .indeterminate, v⟩ := by
      rcases hc with hc | rfl
      · exact if_pos hc
      · rfl
    rw [List.cons_append, put_consumed hput]
    exact ih fun c hc => h c (List.mem_cons_of_mem _ hc)

theorem Follow.head (h : Follow rest) :
    ∃ c rest', rest = c :: rest' ∧ (isspace c ∨ c = ',' ∨ c = ']' ∨ c = '\x7d') := by
  cases h with
  | stop hc => exact ⟨_, _, rfl, .inr hc⟩
  | space hc _ => exact ⟨_, _, rfl, .inl hc⟩

/-- What follows a value belongs to none of its tokens. -/
theorem notToken (h : isspace ch ∨ ch = ',' ∨ ch = ']' ∨ ch = '\x7d') :
    ch.isAlphanum = false ∧ (ch.isDigit || ch == '.') = false ∧ ch ≠ ':' := by
  rcases h with h | rfl | rfl | rfl
  · rcases isspace_cases h with rfl | rfl | rfl | rfl | rfl | rfl <;> decide
  all_goals decide

theorem put_literal {chars : Str} (h : ∀ c ∈ chars, c.isAlphanum) (before : Str) :
    put t visit (fuel + 1) (chars ++ rest) (.parsingLiteral before) v =
      put t visit (fuel + 1) rest (.parsingLiteral (before ++ chars)) v := by
  induction chars generalizing before with
  | nil => rw [List.append_nil, List.nil_append]
  | cons c chars ih =>
    have hput :
        putState t visit c v (.parsingLiteral before) =
          .ok ⟨true, .parsingLiteral (before ++ [c]), v⟩ :=
      if_pos (h c List.mem_cons_self)
    rw [List.cons_append, put_consumed hput, ih fun c hc => h c (List.mem_cons_of_mem _ hc),
      List.append_assoc, List.singleton_append]

theorem put_literal_end {chars : Str} (hf : Follow rest)
    (he : visit v (literalEvent chars) = .ok v') :
    put t visit (fuel + 2) rest (.parsingLiteral chars) v =
      put t visit (fuel + 2) rest .indeterminate v' := by
  obtain ⟨c, rest', rfl, hc⟩ := hf.head
  refine put_again hc ?_
  show putLiteral visit chars c v = _
  rw [putLiteral, if_neg (ne_true_of_eq_false (notToken hc).1), he]
  rfl

theorem put_number {digits : Str} (h : ∀ c ∈ digits, c.isDigit) (before : Str) :
    put t visit (fuel + 1) (digits ++ rest) (.parsingNumber before) v =
      put t visit (fuel + 1) rest (.parsingNumber (before ++ digits)) v := by
  induction digits generalizing before with
  | nil => rw [List.append_nil, List.nil_append]
  | cons c digits ih =>
    have hput :
        putState t visit c v (.parsingNumber before) =
          .ok ⟨true, .parsingNumber (before ++ [c]), v⟩ :=
      if_pos (by rw [h c List.mem_cons_self]; rfl)
    rw [List.cons_append, put_consumed hput, ih fun c hc => h c (List.mem_cons_of_mem _ hc),
      List.append_assoc, List.singleton_append]

theorem put_number_end {chars : Str} {e : Event R} (hf : Follow rest)
    (he : numberEvent t chars = .ok e) (hv : visit v e = .ok v') :
    put t visit (fuel + 2) rest (.parsingNumber chars) v =
      put t visit (fuel + 2) rest .indeterminate v' := by
  obtain ⟨c, rest', rfl, hc⟩ := hf.head
  refine put_again hc ?_
  show putNumber t visit chars c v = _
  rw [putNumber, if_neg (ne_true_of_eq_false (notToken hc).2.1), he]
  show (visit v e >>= _) = _
  rw [hv]
  rfl

/-- A quoted text without characters to escape, up to its closing quote. -/
theorem put_quoted {s : Str} (h : Unescaped s) :
    put t visit (fuel + 1) (quoted s ++ rest) .indeterminate v =
      put t visit (fuel + 1) rest (.parsingString s true) v := by
  have hbody : ∀ before : Str,
    put t visit (fuel + 1) (s ++ '"' :: rest) (.parsingString before false) v =
      put t visit (fuel + 1) rest (.parsingString (before ++ s) true) v := by
    induction s with
    | nil => intro before; rw [List.append_nil, List.nil_append]; exact put_consumed rfl
    | cons c s ih =>
      intro before
      have hput : putState t visit c v (.parsingString before false) =
          .ok ⟨true, .parsingString (before ++ [c]) false, v⟩ := if_pos (h c List.mem_cons_self).1
      rw [List.cons_append, put_consumed hput, ih fun c hc => h c (List.mem_cons_of_mem _ hc),
        List.append_assoc, List.singleton_append]
  have hopen : putState t visit '"' v .indeterminate = .ok ⟨true, .parsingString [] false, v⟩ := rfl
  rw [quoted_unescaped h, List.cons_append, List.append_assoc, List.singleton_append,
    put_consumed hopen, hbody, List.nil_append]

theorem put_string_end {s : Str} (hf : Follow rest) (he : visit v (.stringEvent s) = .ok v') :
    put t visit (fuel + 2) rest (.parsingString s true) v =
      put t visit (fuel + 2) rest .indeterminate v' := by
  induction hf with
  | @stop c rest hc =>
    refine put_again (.inr hc) ?_
    have hsp : isspace c = false := by rcases hc with rfl | rfl | rfl <;> rfl
    show putString visit s true c v = _
    rw [putString, if_neg (by decide), if_neg (ne_true_of_eq_false hsp),
      if_neg (notToken (.inr hc)).2.2, he]
    rfl
  | @space c rest hc _ ih =>
    have hput :
        putState t visit c v (.parsingString s true) = .ok ⟨true, .parsingString s true, v⟩ :=
          if_pos hc
    have hskip : put t visit (fuel + 2) ([c] ++ rest) .indeterminate v' = _ :=
      put_skip fun x hx => by rw [List.mem_singleton.mp hx, skipped, hc]; rfl
    rw [put_consumed hput, ih, ← hskip, List.singleton_append]

end parser

section builder
open Gpcl.Json.Parser ValueBuilder
variable {t : RealText R} {st : PrintStyle} {fuel : Nat} {rest : Str}

/-- The parser of `parse`, between two tokens. -/
def scan (t : RealText R) (fuel : Nat) (text : Str) (stack : ValueBuilder R) :
    Except Error (ParsingState × ValueBuilder R) :=
  put t handleEvent (fuel + 2) text .indeterminate stack

/-- The printed value takes the builder through `handleValue`. -/
def Reads (t : RealText R) (st : PrintStyle) (fuel : Nat) (x : Json R) : Prop :=
  ∀ (n : Nat) (stack stack' : ValueBuilder R) (rest : Str), handleValue x stack = .ok stack' →
    isContainer x = true ∨ Follow rest →
      scan t fuel (serialize t st n x ++ rest) stack = scan t fuel rest stack'

theorem scan_event {c : Char} {stack stack' : ValueBuilder R}
    (h : putIndeterminate handleEvent c stack = .ok ⟨true, .indeterminate, stack'⟩) :
    scan t fuel (c :: rest) stack = scan t fuel rest stack' := put_consumed h

theorem scan_skip {ws : Str} {stack : ValueBuilder R} (h : ∀ c ∈ ws, skipped c) :
    scan t fuel (ws ++ rest) stack = scan t fuel rest stack := put_skip h

theorem reads_literal {c : Char} {chars : Str} {x : Json R} {stack stack' : ValueBuilder R}
    (hc : c.isAlpha) (hsp : isspace c = false) (hchars : chars.all Char.isAlphanum = true)
    (he : handleEvent stack (literalEvent (c :: chars)) = handleValue x stack)
    (hv : handleValue x stack = .ok stack')
    (hf : Follow rest) : scan t fuel (c :: chars ++ rest) stack = scan t fuel rest stack' := by
  have hput :
      putState t handleEvent c stack .indeterminate = .ok ⟨true, .parsingLiteral [c], stack⟩ := by
    show putIndeterminate handleEvent c stack = _
    rw [putIndeterminate, if_neg (ne_true_of_eq_false hsp), if_pos hc]
  rw [scan, List.cons_append, put_consumed hput, put_literal (List.all_eq_true.mp hchars)]
  exact put_literal_end hf (he.trans hv)

theorem reads_integer {i : Int} (h0 : 0 ≤ i) (hi : i < 2 ^ 63) : Reads t st fuel (.integer i) := by
  intro n stack stack' rest hv hf
  have hfollow : Follow rest := hf.resolve_left Bool.false_ne_true
  obtain ⟨m, rfl⟩ := Int.eq_ofNat_of_zero_le h0
  have hm : m < 2 ^ 63 := by exact_mod_cast hi
  have hprint : serialize t st n (.integer (m : Int)) = Nat.toDigits 10 m := by
    rw [serialize, printInteger, if_neg (Int.not_lt.mpr h0), Int.natAbs_natCast]
  have hd : ∀ c ∈ Nat.toDigits 10 m, c.isDigit :=
    fun c hc => Nat.isDigit_of_mem_toDigits (by decide) (by decide) hc
  have hread := readInteger_toDigits hm
  rw [hprint]
  obtain ⟨c, ds, hds⟩ := List.exists_cons_of_ne_nil (Nat.toDigits_ne_nil (n := m) (b := 10))
  rw [hds] at hd hread ⊢
  have hput :
      putState t handleEvent c stack .indeterminate = .ok ⟨true, .parsingNumber [c], stack⟩ :=
    putIndeterminate_digit (hd c List.mem_cons_self)
  have hdot : '.' ∉ c :: ds := fun h => absurd (hd '.' h) (by decide)
  have hev : numberEvent t (c :: ds) = .ok (.integerEvent m) := by
    rw [numberEvent, if_neg hdot, castInteger, hread]
    rfl
  rw [scan, List.cons_append, put_consumed hput,
    put_number fun c hc => hd c (List.mem_cons_of_mem _ hc)]
  exact put_number_end hfollow hev hv

theorem reads_string {s : Str} (h : Unescaped s) : Reads t st fuel (.string s) := by
  intro n stack stack' rest hv hf
  rw [serialize, scan, put_quoted h]
  exact put_string_end (hf.resolve_left Bool.false_ne_true) hv

/-- The elements of an array are appended one by one. -/
theorem scan_elements {n : Nat} {xs : List (Json R)} {stack : ValueBuilder R} (hst : st.Skipped)
    (h : ∀ x ∈ xs, Reads t st fuel x) (hf : Follow rest) (before : List (Json R)) :
    scan t fuel (serializeElements t st n xs ++ rest) (.array before :: stack) =
      scan t fuel rest (.array (before ++ xs) :: stack) := by
  induction xs generalizing before with
  | nil => rw [serializeElements, List.append_nil, List.nil_append]
  | cons x xs ih =>
    have hnext : Follow (serializeElements t st n xs ++ rest) := by
      cases xs with
      | nil => exact hf
      | cons y ys => exact .stop (.inl rfl)
    rw [serializeElements, List.cons_append, scan_event rfl, List.append_assoc,
      scan_skip (newline_skipped hst n), List.append_assoc,
      h x List.mem_cons_self n _ _ _ rfl (.inr hnext),
      ih fun y hy => h y (List.mem_cons_of_mem _ hy), List.append_assoc, List.singleton_append]

theorem scan_members {n : Nat} {fields : List (Str × Json R)} {stack : ValueBuilder R}
    (hst : st.Skipped) (hk : ∀ f ∈ fields, f.1 ≠ [] ∧ Unescaped f.1)
    (h : ∀ f ∈ fields, Reads t st fuel f.2) (hf : Follow rest) (before : List (Str × Json R))
    (key : Str) (hs : ((before ++ fields).map Prod.fst).Pairwise (· < ·)) :
    ∃ key', scan t fuel (serializeMembers t st n fields ++ rest) (.object before key :: stack) =
      scan t fuel rest (.object (before ++ fields) key' :: stack) := by
  induction fields generalizing before key with
  | nil => exact ⟨key, by rw [serializeMembers, List.append_nil, List.nil_append]⟩
  | cons f fields ih =>
    obtain ⟨k, x⟩ := f
    obtain ⟨hne, hu⟩ := hk (k, x) List.mem_cons_self
    have hnext : Follow (serializeMembers t st n fields ++ rest) := by
      cases fields with
      | nil => exact hf
      | cons f fs => exact .stop (.inl rfl)
    have hlast : ∀ e ∈ before, e.1 < k := by
      intro e he
      rw [List.map_append, List.pairwise_append] at hs
      exact hs.2.2 e.1 (List.mem_map_of_mem he) k List.mem_cons_self
    have hput :
        handleValue x (.object before k :: stack) =
          .ok (.object (before ++ [(k, x)]) [] :: stack) := by
      rw [handleValue, if_neg hne, insertKey_last hlast]
    have hkey (text : Str) : put t handleEvent (fuel + 2) (':' :: text) (.parsingString k true)
        (.object before key :: stack) = scan t fuel text (.object before k :: stack) :=
          put_consumed rfl
    obtain ⟨key', hrest⟩ := ih (fun f hf => hk f (List.mem_cons_of_mem _ hf))
      (fun f hf => h f (List.mem_cons_of_mem _ hf)) (before ++ [(k, x)]) []
      (by rwa [List.append_assoc, List.singleton_append])
    refine ⟨key', ?_⟩
    rw [serializeMembers, List.cons_append, scan_event rfl, List.append_assoc,
      scan_skip (newline_skipped hst n), List.append_assoc, scan, put_quoted hu, List.cons_append,
      hkey, List.append_assoc, scan_skip (space_skipped st), List.append_assoc,
      h (k, x) List.mem_cons_self n _ _ _ hput (.inr hnext), hrest, List.append_assoc,
      List.singleton_append]

theorem reads_array {xs : List (Json R)} (hst : st.Skipped) (h : ∀ x ∈ xs, Reads t st fuel x) :
    Reads t st fuel (.array xs) := by
  intro n stack stack' rest hv _
  have hopen (text : Str) :
      scan t fuel ('[' :: text) stack = scan t fuel text (.array [] :: stack) := scan_event rfl
  have hclose : scan t fuel (']' :: rest) (.array xs :: stack) = scan t fuel rest stack' :=
    scan_event (by show (handleValue (.array xs) stack >>= _) = _; rw [hv]; rfl)
  rw [serialize, List.cons_append, hopen, List.append_assoc, List.singleton_append]
  cases xs with
  | nil => exact hclose
  | cons x xs =>
    have hcomma (text : Str) (stack : ValueBuilder R) :
        scan t fuel text stack = scan t fuel (',' :: text) stack :=
      (scan_event rfl).symm
    have hend : Follow (newline st n ++ ']' :: rest) :=
      (Follow.stop (.inr (.inl rfl))).skip (newline_skipped hst n)
    -- the parser takes the first element as if a comma stood before it
    have htext : ',' :: (serializeArray t st n (x :: xs) ++ ']' :: rest) =
        serializeElements t st (n + 1) (x :: xs) ++ (newline st n ++ ']' :: rest) := by
      simp only [serializeArray, serializeElements, List.append_assoc, List.cons_append]
    rw [hcomma, htext, scan_elements hst h hend, List.nil_append, scan_skip (newline_skipped hst n),
      hclose]

theorem reads_object {fields : List (Str × Json R)} (hst : st.Skipped)
    (hs : (fields.map Prod.fst).Pairwise (· < ·)) (hk : ∀ f ∈ fields, f.1 ≠ [] ∧ Unescaped f.1)
    (h : ∀ f ∈ fields, Reads t st fuel f.2) : Reads t st fuel (.object fields) := by
  intro n stack stack' rest hv _
  have hopen (text : Str) :
      scan t fuel ('\x7b' :: text) stack = scan t fuel text (.object [] [] :: stack) :=
    scan_event rfl
  have hclose (key : Str) :
      scan t fuel ('\x7d' :: rest) (.object fields key :: stack) = scan t fuel rest stack' :=
    scan_event (by show (handleValue (.object fields) stack >>= _) = _; rw [hv]; rfl)
  rw [serialize, List.cons_append, hopen, List.append_assoc, List.singleton_append]
  cases fields with
  | nil => exact hclose []
  | cons f fields =>
    have hcomma (text : Str) (stack : ValueBuilder R) :
        scan t fuel text stack = scan t fuel (',' :: text) stack :=
      (scan_event rfl).symm
    have hend : Follow (newline st n ++ '\x7d' :: rest) :=
      (Follow.stop (.inr (.inr rfl))).skip (newline_skipped hst n)
    have htext : ',' :: (serializeObject t st n (f :: fields) ++ '\x7d' :: rest) =
        serializeMembers t st (n + 1) (f :: fields) ++ (newline st n ++ '\x7d' :: rest) := by
      simp only [serializeObject, serializeMembers, List.append_assoc, List.cons_append]
    obtain ⟨key, hmembers⟩ : ∃ key, scan t fuel (serializeMembers t st (n + 1) (f :: fields) ++
        (newline st n ++ '\x7d' :: rest)) (.object [] [] :: stack) =
        scan t fuel (newline st n ++ '\x7d' :: rest) (.object ([] ++ (f :: fields)) key :: stack) :=
       scan_members hst hk h hend [] [] hs
    rw [hcomma, htext, hmembers, List.nil_append, scan_skip (newline_skipped hst n), hclose]

theorem reads_plain {x : Json R} (hst : st.Skipped) (ht : x.Typed) (hp : x.Plain) :
    Reads t st fuel x := by
  induction x using rec_members with
  | null =>
    intro n stack stack' rest hv hf
    exact reads_literal rfl rfl rfl rfl hv (hf.resolve_left Bool.false_ne_true)
  | boolean b =>
    intro n stack stack' rest hv hf
    have hfollow : Follow rest := hf.resolve_left Bool.false_ne_true
    cases b with
    | false => exact reads_literal rfl rfl rfl rfl hv hfollow
    | true => exact reads_literal rfl rfl rfl rfl hv hfollow
  | integer i =>
    cases ht with | integer _ hi => cases hp with | integer h0 => exact reads_integer h0 hi
  | real r => cases hp
  | string s => cases hp with | string hu => exact reads_string hu
  | array xs ih =>
    cases ht with | array ht => cases hp with | array hp =>
      exact reads_array hst fun x hx => ih x hx (ht x hx) (hp x hx)
  | object fields ih =>
    cases ht with | object hs ht => cases hp with | object hk hp =>
      exact reads_object hst hs hk fun f hf => ih f hf (ht f hf) (hp f hf)

end builder

/-- Printing a document and parsing the text gives the document back, in both styles and for every
indent that the parser skips. -/
theorem parse_serialize (t : RealText R) (st : PrintStyle) (hst : st.Skipped) (d : Document R)
    (hp : d.content.Plain) (hc : isContainer d.content = true) (n fuel : Nat) :
    parse t (fuel + 2) (serialize t st n d.content) = .ok d.content := by
  have h : Reads t st fuel d.content := reads_plain hst d.typed hp
  have hscan :
      scan t fuel (serialize t st n d.content) .init =
        .ok (.indeterminate, [.value d.content]) := by
    rw [← List.append_nil (serialize t st n d.content)]
    exact h n .init [.value d.content] [] rfl (.inl hc)
  rw [parse]
  exact congrArg (· >>= fun r => r.2.getValue) hscan

/-- An object with an array of the leaves, in the default indent. -/
def sample : Document Int where
  content := .object [(['a'], .array [.null, .boolean true, .integer 7, .string ['x']])]
  typed := by
    refine .object (List.pairwise_singleton _ _) (fun f hf => ?_)
    rw [List.mem_singleton.mp hf]
    refine .array fun x hx => ?_
    simp only [List.mem_cons, List.not_mem_nil, or_false] at hx
    rcases hx with rfl | rfl | rfl | rfl
    · exact .null
    · exact .boolean true
    · exact .integer (by decide) (by decide)
    · exact .string _

theorem sample_plain : sample.content.Plain := by
  have hu (c : Char) (hc : c ≠ '"' ∧ c ≠ '\\') : Unescaped [c] :=
    fun x hx => List.mem_singleton.mp hx ▸ hc
  refine .object (fun f hf => ?_) (fun f hf => ?_)
  · rw [List.mem_singleton.mp hf]
    exact ⟨List.cons_ne_nil _ _, hu 'a' (by decide)⟩
  · rw [List.mem_singleton.mp hf]
    refine .array fun x hx => ?_
    simp only [List.mem_cons, List.not_mem_nil, or_false] at hx
    rcases hx with rfl | rfl | rfl | rfl
    · exact .null
    · exact .boolean true
    · exact .integer (by decide)
    · exact .string (hu 'x' (by decide))

def wholeNumbers : RealText Int where
  print := printInteger
  read := readInteger

theorem parse_serialize_sample :
    parse wholeNumbers 2 (serialize wholeNumbers (.pretty "    ".toList) 0 sample.content) =
    .ok sample.content :=
  parse_serialize wholeNumbers (.pretty "    ".toList) (fun c hc => by
    rw [List.eq_of_mem_replicate (show c ∈ List.replicate 4 ' ' from hc)];
      rfl) sample sample_plain rfl 0 0

/-- The serializer takes any indent; one with a letter in it spoils the text. -/
theorem parse_letter_indent :
    ∃ (item : Str) (d : Document Int), d.content.Plain ∧ isContainer d.content = true ∧
    ∀ fuel, parse wholeNumbers fuel (serialize wholeNumbers (.pretty item) 0 d.content) ≠
      .ok d.content := by
  refine ⟨['x'], ⟨.array [.null], .array fun y hy => List.mem_singleton.mp hy ▸ .null⟩,
    .array fun y hy => List.mem_singleton.mp hy ▸ .null, rfl, fun fuel h => ?_⟩
  cases fuel with
  | zero => cases h
  | succ fuel =>
    have herror :
        parse wholeNumbers (fuel + 1) (serialize wholeNumbers (.pretty ['x']) 0 (.array [.null])) =
        .error (.failedToParse "parser") := rfl
    rw [herror] at h
    cases h

end Gpcl.Json
