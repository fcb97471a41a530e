import SchemaGuard.Proofs.Json.Layout

/-!
Texts of a value in general: any blanks between lexemes, any escapes in string literals and any way
to write a number. Whatever follows, the lexemes of such a text are read as they are spelled, and
its tokens are those of the value.
-/

set_option autoImplicit false
set_option relaxedAutoImplicit false

namespace SchemaGuard

open Token.Scan

/-- The characters are written in a string literal: as themselves, by a letter, by a code, or by the
codes of two surrogates. -/
inductive Token.Scan.Spells : List Char → List Char → Prop
  | nil : Spells [] []
  | plain {c : Char} {s t : List Char} : c ≠ '"' → c ≠ '\\' → 0x20 ≤ c.toNat → Spells s t →
    Spells (c :: s) (c :: t)
  | letter {e c : Char} {s t : List Char} : unescape? e = some c → Spells s t →
    Spells (c :: s) ('\\' :: e :: t)
  | code {a b c d : Char} {n : Nat} {s t : List Char} : hexValues? a b c d = some n →
    isLeading n = false → isTrailing n = false → Spells s t →
    Spells (Char.ofNat n :: s) ('\\' :: 'u' :: a :: b :: c :: d :: t)
  | pair {a b c d a' b' c' d' : Char} {n n' : Nat} {s t : List Char} :
    hexValues? a b c d = some n → isLeading n = true → hexValues? a' b' c' d' = some n' →
    isTrailing n' = true → Spells s t →
    Spells (paired n n' :: s)
      ('\\' :: 'u' :: a :: b :: c :: d :: '\\' :: 'u' :: a' :: b' :: c' :: d' :: t)

namespace Token.Scan

variable {rest : List Char}

private theorem literal_spells {s t : List Char} (h : Spells s t) (total : Nat) (rest : List Char) :
    ∀ (offset : Nat) (acc : List Char), ∃ stop,
      literal total offset none (.ok acc) (t ++ '"' :: rest) =
        .ended (.ok (s.reverse ++ acc)) stop rest := by
  induction h with
  | nil => exact fun offset acc => ⟨offset + 1, by simp [literal, unpaired]⟩
  | @plain c s t hquote hslash hprinted _ ih =>
    intro offset acc
    obtain ⟨stop, hread⟩ := ih (offset + c.utf8Size) (c :: acc)
    refine ⟨stop, ?_⟩
    have hstep : literal total offset none (.ok acc) (c :: (t ++ '"' :: rest)) =
        literal total (offset + c.utf8Size) none (.ok (c :: acc)) (t ++ '"' :: rest) := by
      rw [literal.eq_def]
      split <;> simp_all [unpaired, push, Except.map, Nat.not_lt.mpr]
    rw [List.cons_append, hstep, hread, List.reverse_cons, List.append_assoc, List.singleton_append]
  | @letter e c s t hletter _ ih =>
    intro offset acc
    obtain ⟨stop, hread⟩ := ih (offset + 2) (c :: acc)
    refine ⟨stop, ?_⟩
    -- The reader takes `u` for a code before it asks for a letter.
    have hother : e ≠ 'u' := by
      rintro rfl
      cases hletter
    have hstep : literal total offset none (.ok acc) ('\\' :: e :: (t ++ '"' :: rest)) =
        literal total (offset + 2) none (.ok (c :: acc)) (t ++ '"' :: rest) := by
      rw [literal]
      · simp only [hletter, unpaired, push, Except.map]
      · exact fun _ _ _ _ _ h => absurd h hother
      · exact hother
    rw [List.cons_append, List.cons_append, hstep, hread, List.reverse_cons, List.append_assoc,
      List.singleton_append]
  | @code a b c d n s t hcode hleading htrailing _ ih =>
    intro offset acc
    obtain ⟨stop, hread⟩ := ih (offset + 6) (Char.ofNat n :: acc)
    refine ⟨stop, ?_⟩
    simp only [List.cons_append, literal, hcode, hleading, htrailing, Bool.false_eq_true, if_false,
      push, Except.map, hread, List.reverse_cons, List.append_assoc, List.nil_append]
  | @pair a b c d a' b' c' d' n n' s t hfirst hleading hsecond htrailing _ ih =>
    intro offset acc
    obtain ⟨stop, hread⟩ := ih (offset + 6 + 6) (paired n n' :: acc)
    refine ⟨stop, ?_⟩
    simp only [List.cons_append, literal, hfirst, hleading, hsecond, htrailing, if_true,
      push, Except.map, hread, List.reverse_cons, List.append_assoc, List.nil_append]

/-- The digits before the point of a number: one, or more that do not begin with zero. -/
inductive WholeSpelled : List Char → Prop
  | zero : WholeSpelled ['0']
  | digits {d : Char} {ds : List Char} : isDigit d = true → d ≠ '0' →
    (∀ c ∈ ds, isDigit c = true) → WholeSpelled (d :: ds)

/-- The digits behind the point of a number, and how they are written. -/
inductive FractionSpelled : List Char → List Char → Prop
  | none : FractionSpelled [] []
  | digits {d : Char} {ds : List Char} : (∀ c ∈ d :: ds, isDigit c = true) →
    FractionSpelled (d :: ds) ('.' :: d :: ds)

/-- The sign and digits of the power of ten of a number, and how they are written. -/
inductive PowerSpelled : Option (Bool × List Char) → List Char → Prop
  | none : PowerSpelled none []
  | bare {e d : Char} {ds : List Char} : e = 'e' ∨ e = 'E' → (∀ c ∈ d :: ds, isDigit c = true) →
    PowerSpelled (some (false, d :: ds)) (e :: d :: ds)
  | plus {e d : Char} {ds : List Char} : e = 'e' ∨ e = 'E' → (∀ c ∈ d :: ds, isDigit c = true) →
    PowerSpelled (some (false, d :: ds)) (e :: '+' :: d :: ds)
  | minus {e d : Char} {ds : List Char} : e = 'e' ∨ e = 'E' → (∀ c ∈ d :: ds, isDigit c = true) →
    PowerSpelled (some (true, d :: ds)) (e :: '-' :: d :: ds)

def Stops (rest : List Char) : Prop :=
  ∀ c ∈ rest.head?, isDigit c = false ∧ c ≠ '.' ∧ c ≠ 'e' ∧ c ≠ 'E'

private theorem takeWhile_digits {ds : List Char} (h : ∀ c ∈ ds, isDigit c = true)
    (hrest : ∀ c ∈ rest.head?, isDigit c = false) : (ds ++ rest).takeWhile isDigit = ds := by
  rw [List.takeWhile_append_of_pos h]
  cases rest with
  | nil => simp
  | cons c rest => simp [hrest c rfl]

private theorem dropWhile_digits {ds : List Char} (h : ∀ c ∈ ds, isDigit c = true)
    (hrest : ∀ c ∈ rest.head?, isDigit c = false) : (ds ++ rest).dropWhile isDigit = rest := by
  rw [List.dropWhile_append_of_pos h]
  cases rest with
  | nil => simp
  | cons c rest => simp [hrest c rfl]

def numeral (negative : Bool) (whole fraction : List Char) (power : Option (Bool × List Char))
    (start : Nat) : Numeral :=
  ⟨negative, whole, fraction, power.map fun (below, digits) => (below, start, digits)⟩

variable {negative : Bool} {whole fraction cs : List Char} {power : Option (Bool × List Char)}

private theorem exponentOf_spelled (h : PowerSpelled power cs) (hrest : Stops rest)
    (total offset : Nat) (negative : Bool) (whole fraction : List Char) : ∃ start stop,
    exponentOf total offset negative whole fraction (cs ++ rest) =
      .ended ((numeral negative whole fraction power start).value stop) stop rest := by
  have hdigit : ∀ c ∈ rest.head?, isDigit c = false := fun c hc => (hrest c hc).1
  cases h with
  | none =>
    refine ⟨0, offset, ?_⟩
    cases rest with
    | nil => simp [exponentOf, numeral]
    | cons c rest =>
      obtain ⟨-, -, he, hE⟩ := hrest c rfl
      rw [List.nil_append, exponentOf.eq_def]
      simp only [he, hE, or_self, if_false]
      rfl
  | @bare e d ds he hds =>
    refine ⟨offset + 1, offset + 1 + (d :: ds).length, ?_⟩
    have hd := hds d List.mem_cons_self
    have hplus : d ≠ '+' := by
      rintro rfl
      cases hd
    have hminus : d ≠ '-' := by
      rintro rfl
      cases hd
    have htake := takeWhile_digits hds hdigit
    have hdrop := dropWhile_digits hds hdigit
    rw [List.cons_append] at htake hdrop
    rw [List.cons_append, List.cons_append, exponentOf, if_pos he, if_pos hd, htake, hdrop]
    · rfl
    · exact fun _ heq => hplus (List.cons.inj heq).1
    · exact fun _ heq => hminus (List.cons.inj heq).1
  | @plus e d ds he hds =>
    refine ⟨offset + 2, offset + 2 + (d :: ds).length, ?_⟩
    have htake := takeWhile_digits hds hdigit
    have hdrop := dropWhile_digits hds hdigit
    rw [List.cons_append] at htake hdrop
    rw [List.cons_append, List.cons_append, List.cons_append, exponentOf, if_pos he,
      if_pos (hds d List.mem_cons_self), htake, hdrop]
    rfl
  | @minus e d ds he hds =>
    refine ⟨offset + 2, offset + 2 + (d :: ds).length, ?_⟩
    have htake := takeWhile_digits hds hdigit
    have hdrop := dropWhile_digits hds hdigit
    rw [List.cons_append] at htake hdrop
    rw [List.cons_append, List.cons_append, List.cons_append, exponentOf, if_pos he,
      if_pos (hds d List.mem_cons_self), htake, hdrop]
    rfl

private theorem PowerSpelled.stops (h : PowerSpelled power cs) (hrest : Stops rest) :
    ∀ c ∈ (cs ++ rest).head?, isDigit c = false ∧ c ≠ '.' := by
  intro c hc
  cases h with
  | none => exact ⟨(hrest c hc).1, (hrest c hc).2.1⟩
  | bare he | plus he | minus he =>
    obtain rfl := Option.some.inj hc
    rcases he with rfl | rfl <;> decide

private theorem fractionOf_spelled {ftext ptext : List Char}
    (hfraction : FractionSpelled fraction ftext)
    (hpower : PowerSpelled power ptext) (hrest : Stops rest) (total offset : Nat) (negative : Bool)
    (whole : List Char) : ∃ start stop,
    fractionOf total offset negative whole (ftext ++ (ptext ++ rest)) =
      .ended ((numeral negative whole fraction power start).value stop) stop rest := by
  have hstops := hpower.stops hrest
  cases hfraction with
  | none =>
    obtain ⟨start, stop, hread⟩ := exponentOf_spelled hpower hrest total offset negative whole []
    refine ⟨start, stop, ?_⟩
    rw [List.nil_append, ← hread, fractionOf.eq_def]
    split
    · next heq =>
      exact absurd rfl (hstops '.' (by rw [heq]; rfl)).2
    · rfl
  | @digits d ds hds =>
    have hdigit : ∀ c ∈ (ptext ++ rest).head?, isDigit c = false := fun c hc => (hstops c hc).1
    obtain ⟨start, stop, hread⟩ := exponentOf_spelled hpower hrest total
      (offset + 1 + (d :: ds).length) negative whole (d :: ds)
    refine ⟨start, stop, ?_⟩
    rw [List.cons_append, ← hread, fractionOf.eq_def]
    simp only [takeWhile_digits hds hdigit, dropWhile_digits hds hdigit]

private theorem unsigned_spelled {ftext ptext : List Char} (hwhole : WholeSpelled whole)
    (hfraction : FractionSpelled fraction ftext) (hpower : PowerSpelled power ptext)
    (hrest : Stops rest) (total offset : Nat) (negative : Bool) :
    ∃ start stop, unsigned total offset negative (whole ++ (ftext ++ (ptext ++ rest))) =
      .ended ((numeral negative whole fraction power start).value stop) stop rest := by
  have hdigit : ∀ c ∈ (ftext ++ (ptext ++ rest)).head?, isDigit c = false := by
    intro c hc
    cases hfraction with
    | none => exact (hpower.stops hrest c hc).1
    | digits =>
      obtain rfl := Option.some.inj hc
      rfl
  cases hwhole with
  | zero =>
    obtain ⟨start, stop, hread⟩ := fractionOf_spelled hfraction hpower hrest total (offset + 1)
      negative ['0']
    refine ⟨start, stop, ?_⟩
    rw [← hread, List.singleton_append, unsigned.eq_def]
    generalize ftext ++ (ptext ++ rest) = behind at *
    cases behind with
    | nil => rfl
    | cons c behind =>
      simp only [hdigit c rfl, Bool.false_eq_true, if_false]
  | @digits d ds hd hzero hds =>
    obtain ⟨start, stop, hread⟩ := fractionOf_spelled hfraction hpower hrest total
      (offset + (d :: ds).length) negative (d :: ds)
    refine ⟨start, stop, ?_⟩
    rw [← hread, List.cons_append, unsigned]
    · simp only [hd, if_true, takeWhile_digits hds hdigit, dropWhile_digits hds hdigit]
    · exact hzero

end Token.Scan

/-- The characters are a number: a sign or none, digits, and the digits behind a point and a power
of ten where they are given. -/
inductive Number.SpelledBy : Number → List Char → Prop
  | intro {n : Number} {negative : Bool} {whole fraction fractionText powerText : List Char}
    {power : Option (Bool × List Char)} : WholeSpelled whole →
    FractionSpelled fraction fractionText → PowerSpelled power powerText →
    (∀ start stop, (numeral negative whole fraction power start).value stop = .ok n) →
    Number.SpelledBy n
      ((if negative then ['-'] else []) ++ (whole ++ (fractionText ++ powerText)))

/-- The characters are a lexeme, as compact text has it or with other escapes, or a number. -/
inductive Lexeme.SpelledBy : Lexeme → List Char → Prop
  | written {lexeme : Lexeme} {cs : List Char} : lexeme.Writes cs → Lexeme.SpelledBy lexeme cs
  | string {s t : List Char} : Spells s t →
    Lexeme.SpelledBy (.string (.ok (String.ofList s))) ('"' :: (t ++ ['"']))
  | number {n : Number} {cs : List Char} : n.SpelledBy cs → Lexeme.SpelledBy (.number (.ok n)) cs

def Lexeme.EndsBefore : Lexeme → List Char → Prop
  | .number _, rest => Stops rest
  | _, _ => True

/-- The characters are those of the lexemes with any blanks before each of them, and others behind
them. -/
inductive Opening (rest : List Char) : List Lexeme → List Char → Prop
  | nil : Opening rest [] rest
  | blank {lexemes : List Lexeme} {c : Char} {cs : List Char} :
    Token.isBlank c = true → Opening rest lexemes cs → Opening rest lexemes (c :: cs)
  | lexeme {first : Lexeme} {lexemes : List Lexeme} {cs cs' : List Char} :
    first.SpelledBy cs → first.EndsBefore cs' → Opening rest lexemes cs' →
    Opening rest (first :: lexemes) (cs ++ cs')

/-- The text is that of the value. -/
def Json.SpelledBy (x : Json) (text : String) : Prop := Opening [] x.lexemes text.toList

private theorem Lexeme.Writes.endsBefore {lexeme : Lexeme} {cs : List Char} (h : lexeme.Writes cs)
    (rest : List Char) : lexeme.EndsBefore rest := by
  cases h with
  | mark | string => trivial
  | word hword =>
    unfold Token.word? at hword
    split at hword
    any_goals
      obtain ⟨rfl, rfl⟩ := Prod.mk.inj (Option.some.inj hword)
      trivial
    cases hword

theorem Layout.opening {lexemes : List Lexeme} {cs : List Char} (h : Layout lexemes cs)
    (rest : List Char) : Opening rest lexemes (cs ++ rest) := by
  induction h with
  | nil => exact .nil
  | blank hblank _ ih => exact .blank hblank ih
  | lexeme hwrites _ ih =>
    rw [List.append_assoc]
    exact .lexeme (.written hwrites) (hwrites.endsBefore _) ih

namespace Token

variable {total offset : Nat} {cs rest : List Char}

private theorem next_literal {s t : List Char} (h : Spells s t) (total offset : Nat)
    (rest : List Char) :
    ∃ stop hle, next total offset '"' (t ++ '"' :: rest) =
      (⟨offset, stop, .string (.ok (String.ofList s))⟩, some (stop, ⟨rest, hle⟩)) := by
  obtain ⟨stop, hread⟩ := literal_spells h total rest (offset + 1) []
  refine ⟨stop, Scan.literal_length hread, ?_⟩
  rw [next, if_neg (by decide), if_pos rfl]
  split
  · next heq =>
    obtain ⟨rfl, rfl, rfl⟩ := Scan.Literal.ended.inj (hread.symm.trans heq)
    simp [Except.map]
  · next heq => cases hread.symm.trans heq

private theorem next_minus {n : Number} {stop : Nat} (h : unsigned total (offset + 1) true cs =
    .ended (.ok n) stop rest) : ∃ hle, next total offset '-' cs =
      (⟨offset, stop, .number (.ok n)⟩, some (stop, ⟨rest, hle⟩)) := by
  refine ⟨Nat.le_of_lt (Scan.unsigned_length h), ?_⟩
  rw [next, if_neg (by decide), if_neg (by decide), if_pos rfl]
  split
  · next heq =>
    obtain ⟨rfl, rfl, rfl⟩ := Scan.Figure.ended.inj (h.symm.trans heq)
    rfl
  · next heq => cases h.symm.trans heq

private theorem isBlank_of_isDigit {d : Char} (hd : isDigit d = true) : isBlank d = false := by
  cases hblank : isBlank d with
  | false => rfl
  | true =>
    simp only [isBlank, Bool.or_eq_true, decide_eq_true_eq] at hblank
    rcases hblank with ((rfl | rfl) | rfl) | rfl <;> cases hd

private theorem isMark_of_isDigit {d : Char} (hd : isDigit d = true) : isMark d = false := by
  cases hmark : isMark d with
  | false => rfl
  | true =>
    simp only [isMark, Bool.or_eq_true, decide_eq_true_eq] at hmark
    rcases hmark with ((((rfl | rfl) | rfl) | rfl) | rfl) | rfl <;> cases hd

private theorem next_digit {d : Char} {n : Number} {stop : Nat} (hd : isDigit d = true)
    (h : unsigned total offset false (d :: cs) = .ended (.ok n) stop rest) :
    ∃ hle, next total offset d cs =
      (⟨offset, stop, .number (.ok n)⟩, some (stop, ⟨rest, hle⟩)) := by
  have hquote : d ≠ '"' := by
    rintro rfl
    cases hd
  have hminus : d ≠ '-' := by
    rintro rfl
    cases hd
  refine ⟨Nat.le_of_lt_succ (Scan.unsigned_length h), ?_⟩
  rw [next, isMark_of_isDigit hd, if_neg Bool.false_ne_true, if_neg hquote, if_neg hminus,
    if_pos hd]
  split
  · next heq =>
    obtain ⟨rfl, rfl, rfl⟩ := Scan.Figure.ended.inj (h.symm.trans heq)
    rfl
  · next heq => cases h.symm.trans heq

private theorem scan_number {n : Number} (h : n.SpelledBy cs) (hrest : Stops rest) :
    ∃ t stop, t.lexeme = .number (.ok n) ∧
      scan total offset (cs ++ rest) = t :: scan total stop rest := by
  cases h with
  | @intro negative whole fraction fractionText powerText power hwhole hfraction hpower hvalue =>
    obtain ⟨start, stop, hread⟩ := unsigned_spelled hwhole hfraction hpower hrest total
      (if negative then offset + 1 else offset) negative
    rw [hvalue] at hread
    refine ⟨⟨offset, stop, .number (.ok n)⟩, stop, rfl, ?_⟩
    rw [List.append_assoc, List.append_assoc, List.append_assoc]
    cases negative with
    | true => exact scan_cons rfl (next_minus hread)
    | false =>
      cases hwhole with
      | zero => exact scan_cons rfl (next_digit rfl hread)
      | digits hd => exact scan_cons (isBlank_of_isDigit hd) (next_digit hd hread)

private theorem scan_spelled {lexeme : Lexeme} (h : lexeme.SpelledBy cs)
    (hends : lexeme.EndsBefore rest) (total offset : Nat) : ∃ t stop, t.lexeme = lexeme ∧
      scan total offset (cs ++ rest) = t :: scan total stop rest := by
  cases h with
  | written h => exact scan_writes total offset rest h
  | @string s t h =>
    obtain ⟨stop, hnext⟩ := next_literal h total offset rest
    refine ⟨⟨offset, stop, .string (.ok (String.ofList s))⟩, stop, rfl, ?_⟩
    rw [List.cons_append, List.append_assoc]
    exact scan_cons rfl hnext
  | number h => exact scan_number h hends

/-- The tokens of a text are the lexemes that it opens with, and what the rest of it gives. -/
theorem scan_opening {lexemes : List Lexeme} (h : Opening rest lexemes cs) (total offset : Nat) :
    ∃ tokens stop, tokens.map Token.lexeme = lexemes ∧
      scan total offset cs = tokens ++ scan total stop rest := by
  induction h generalizing offset with
  | nil => exact ⟨[], offset, rfl, rfl⟩
  | blank hblank _ ih =>
    rw [scan_blank hblank]
    exact ih (offset + 1)
  | lexeme hspelled hends _ ih =>
    obtain ⟨t, stop, rfl, hscan⟩ := scan_spelled hspelled hends total offset
    obtain ⟨tokens, stop', rfl, htokens⟩ := ih stop
    exact ⟨t :: tokens, stop', rfl, by rw [hscan, htokens, List.cons_append]⟩

end Token

end SchemaGuard
