import SchemaGuard.Json.Printer
import SchemaGuard.Json.Token
import SchemaGuard.Proofs.Json.Depth

/-!
Texts as lexemes with blanks between them. The tokens of such a text are these lexemes, whatever
characters the strings hold, and the compact text of a value without numbers lays out the lexemes of
the value.
-/

set_option autoImplicit false
set_option relaxedAutoImplicit false

namespace SchemaGuard

/-- How a lexeme is written. -/
inductive Lexeme.Writes : Lexeme → List Char → Prop
  | mark {c : Char} : Token.isMark c = true → Lexeme.Writes (.mark c) [c]
  | word {c : Char} {tail : List Char} {lexeme : Lexeme} :
    Token.word? c = some (tail, lexeme) → Lexeme.Writes lexeme (c :: tail)
  | string {s : String} : Lexeme.Writes (.string (.ok s)) (Text.quoted s).toList

/-- The characters are those of the lexemes, with any blanks around them. -/
inductive Layout : List Lexeme → List Char → Prop
  | nil : Layout [] []
  | blank {lexemes : List Lexeme} {c : Char} {cs : List Char} :
    Token.isBlank c = true → Layout lexemes cs → Layout lexemes (c :: cs)
  | lexeme {first : Lexeme} {rest : List Lexeme} {cs cs' : List Char} :
    first.Writes cs → Layout rest cs' → Layout (first :: rest) (cs ++ cs')

namespace Layout

variable {l l' : List Lexeme} {cs cs' : List Char}

theorem append (h : Layout l cs) (h' : Layout l' cs') : Layout (l ++ l') (cs ++ cs') := by
  induction h with
  | nil => exact h'
  | blank hblank _ ih => exact .blank hblank ih
  | lexeme hwrites _ ih =>
    rw [List.append_assoc]
    exact .lexeme hwrites ih

private theorem single {first : Lexeme} (h : first.Writes cs) : Layout [first] cs := by
  simpa using Layout.lexeme h .nil

theorem mark {c : Char} (hmark : Token.isMark c = true) (h : Layout l cs) :
    Layout (.mark c :: l) (c :: cs) :=
  .lexeme (.mark hmark) h

end Layout

namespace Token.Scan

variable {total offset : Nat} {acc cs rest : List Char}

private theorem hexValue?_hexDigit : ∀ n < 16, hexValue? (Text.hexDigit n) = some n := by decide

private theorem hexValues?_of_lt {n : Nat} (h : n < 0x20) :
    hexValues? '0' '0' (Text.hexDigit (n / 16)) (Text.hexDigit (n % 16)) = some n := by
  have hhigh := hexValue?_hexDigit (n / 16) (by omega)
  have hlow := hexValue?_hexDigit (n % 16) (by omega)
  have hzero : hexValue? '0' = some 0 := by decide
  simp only [hexValues?, hzero, hhigh, hlow, Option.bind_eq_bind, Option.bind_some,
    Option.pure_def, Option.some.injEq]
  omega

private theorem literal_escaped (total offset : Nat) (acc cs : List Char) (c : Char) : ∃ offset',
    literal total offset none (.ok acc) (Text.escaped c ++ cs) =
      literal total offset' none (.ok (c :: acc)) cs := by
  unfold Text.escaped
  split
  case h_8 _ hquote hslash _ _ _ _ _ =>
    split
    case isTrue hcontrol =>
      -- A control character is below the surrogates.
      have hleading : isLeading c.toNat = false := by
        simp only [isLeading, Bool.and_eq_false_iff, decide_eq_false_iff_not]
        omega
      have htrailing : isTrailing c.toNat = false := by
        simp only [isTrailing, Bool.and_eq_false_iff, decide_eq_false_iff_not]
        omega
      refine ⟨offset + 6, ?_⟩
      simp [literal, hexValues?_of_lt hcontrol, hleading, htrailing, push, Except.map,
        Char.ofNat_toNat]
    case isFalse hplain =>
      refine ⟨offset + c.utf8Size, ?_⟩
      rw [List.singleton_append, literal.eq_def]
      split <;> simp_all [unpaired, push, Except.map, Nat.not_lt.mpr]
  all_goals exact ⟨offset + 2, by simp [literal, unescape?, unpaired, push, Except.map]⟩

theorem literal_text (text : List Char) : ∃ stop,
    literal total offset none (.ok acc) (text.flatMap Text.escaped ++ '"' :: rest) =
      .ended (.ok (text.reverse ++ acc)) stop rest := by
  induction text generalizing offset acc with
  | nil => exact ⟨offset + 1, by simp [literal, unpaired]⟩
  | cons c text ih =>
    obtain ⟨offset', hc⟩ :=
      literal_escaped total offset acc (text.flatMap Text.escaped ++ '"' :: rest) c
    obtain ⟨stop, htext⟩ := @ih offset' (c :: acc)
    refine ⟨stop, ?_⟩
    simp only [List.flatMap_cons, List.append_assoc, List.reverse_cons, List.singleton_append]
    exact hc.trans htext

private theorem word_append (offset : Nat) (w rest : List Char) :
    word offset w (w ++ rest) = .ok rest := by
  induction w generalizing offset with
  | nil => rfl
  | cons c w ih => simpa [word] using ih (offset + 1)

end Token.Scan

namespace Token

variable {total offset : Nat} {c : Char} {cs rest : List Char} {lexeme : Lexeme}

private theorem next_mark (hmark : isMark c = true) :
    ∃ hle, next total offset c rest =
      (⟨offset, offset + 1, .mark c⟩, some (offset + 1, ⟨rest, hle⟩)) :=
  ⟨Nat.le_refl _, by rw [next, if_pos hmark]⟩

private theorem next_word {tail : List Char} (hword : word? c = some (tail, lexeme)) :
    ∃ hle, next total offset c (tail ++ rest) =
      (⟨offset, offset + 1 + tail.length, lexeme⟩,
        some (offset + 1 + tail.length, ⟨rest, hle⟩)) := by
  have hread := Scan.word_append (offset + 1) tail rest
  have hother : isMark c = false ∧ c ≠ '"' ∧ c ≠ '-' ∧ Scan.isDigit c = false := by
    unfold word? at hword
    split at hword
    · decide
    · decide
    · decide
    · cases hword
  obtain ⟨hmark, hquote, hminus, hdigit⟩ := hother
  refine ⟨Scan.word_length hread, ?_⟩
  simp only [next, hmark, hdigit, if_neg hquote, if_neg hminus, Bool.false_eq_true, if_false]
  split
  · next heq =>
    obtain ⟨rfl, rfl⟩ := Prod.mk.inj (Option.some.inj (hword.symm.trans heq))
    split
    · next hok =>
      obtain rfl := Except.ok.inj (hread.symm.trans hok)
      rfl
    · next herror => cases hread.symm.trans herror
  · next heq => cases hword.symm.trans heq

private theorem next_string (total offset : Nat) (rest : List Char) (s : String) :
    ∃ stop hle, next total offset '"' (s.toList.flatMap Text.escaped ++ '"' :: rest) =
      (⟨offset, stop, .string (.ok s)⟩, some (stop, ⟨rest, hle⟩)) := by
  obtain ⟨stop, hread⟩ := @Scan.literal_text total (offset + 1) [] rest s.toList
  refine ⟨stop, Scan.literal_length hread, ?_⟩
  rw [next, if_neg (by decide), if_pos rfl]
  split
  · next heq =>
    obtain ⟨rfl, rfl, rfl⟩ := Scan.Literal.ended.inj (hread.symm.trans heq)
    simp [Except.map, String.ofList_toList]
  · next heq => cases hread.symm.trans heq

private theorem isBlank_of_isMark (h : isMark c = true) : isBlank c = false := by
  simp only [isMark, Bool.or_eq_true, decide_eq_true_eq] at h
  rcases h with ((((rfl | rfl) | rfl) | rfl) | rfl) | rfl <;> decide

private theorem isBlank_of_word? {found : List Char × Lexeme} (h : word? c = some found) :
    isBlank c = false := by
  unfold word? at h
  split at h
  · decide
  · decide
  · decide
  · cases h

theorem scan_blank (hblank : isBlank c = true) :
    scan total offset (c :: cs) = scan total (offset + 1) cs := by
  rw [scan, if_pos hblank]

theorem scan_cons {t : Token} {stop : Nat} (hblank : isBlank c = false)
    (h : ∃ hle, next total offset c cs = (t, some (stop, ⟨rest, hle⟩))) :
    scan total offset (c :: cs) = t :: scan total stop rest := by
  obtain ⟨hle, h⟩ := h
  rw [scan, hblank, if_neg (by simp), h]

theorem scan_writes (total offset : Nat) (rest : List Char) (h : lexeme.Writes cs) :
    ∃ t stop, t.lexeme = lexeme ∧
      scan total offset (cs ++ rest) = t :: scan total stop rest := by
  cases h with
  | mark hmark => exact ⟨_, _, rfl, scan_cons (isBlank_of_isMark hmark) (next_mark hmark)⟩
  | word hword => exact ⟨_, _, rfl, scan_cons (isBlank_of_word? hword) (next_word hword)⟩
  | @string s =>
    obtain ⟨stop, hnext⟩ := next_string total offset rest s
    refine ⟨⟨offset, stop, .string (.ok s)⟩, stop, rfl, ?_⟩
    simp only [Text.quoted, String.toList_ofList, List.append_assoc, List.cons_append]
    exact scan_cons rfl hnext

theorem scan_layout {lexemes : List Lexeme} (h : Layout lexemes cs) :
    (scan total offset cs).map Token.lexeme = lexemes ++ [.finish] := by
  induction h generalizing offset with
  | nil =>
    rw [scan]
    rfl
  | blank hblank _ ih =>
    rw [scan_blank hblank]
    exact ih
  | @lexeme _ _ _ rest hwrites _ ih =>
    obtain ⟨t, stop, rfl, hscan⟩ := scan_writes total offset rest hwrites
    rw [hscan, List.map_cons, ih, List.cons_append]

end Token

namespace Json

mutual
def lexemes : Json → List Lexeme
  | .null => [.null]
  | .bool b => [.bool b]
  | .number n => [.number (.ok n)]
  | .string s => [.string (.ok s)]
  | .array items => .mark '[' :: lexemesOfItems items
  | .object members => .mark '\x7b' :: lexemesOfMembers members

def lexemesOfItems : List Json → List Lexeme
  | [] => [.mark ']']
  | x :: xs => lexemes x ++ lexemesOfMoreItems xs

def lexemesOfMoreItems : List Json → List Lexeme
  | [] => [.mark ']']
  | x :: xs => .mark ',' :: (lexemes x ++ lexemesOfMoreItems xs)

def lexemesOfMembers : List (String × Json) → List Lexeme
  | [] => [.mark '\x7d']
  | (k, x) :: xs => .string (.ok k) :: .mark ':' :: (lexemes x ++ lexemesOfMoreMembers xs)

def lexemesOfMoreMembers : List (String × Json) → List Lexeme
  | [] => [.mark '\x7d']
  | (k, x) :: xs =>
    .mark ',' :: .string (.ok k) :: .mark ':' :: (lexemes x ++ lexemesOfMoreMembers xs)
end

def Numberless (x : Json) : Prop := ∀ n, ¬ (Json.number n).Part x

@[simp] private theorem numberless_null : Json.null.Numberless := nofun

@[simp] private theorem numberless_bool (b : Bool) : (Json.bool b).Numberless := nofun

@[simp] theorem numberless_string (text : String) : (Json.string text).Numberless := nofun

@[simp] private theorem numberless_array_iff {items : List Json} :
    (Json.array items).Numberless ↔ ∀ x ∈ items, x.Numberless := by
  constructor
  · exact fun h x hx n hpart => h n (hpart.trans (part_of_mem_items hx))
  · intro h n hpart
    cases hpart with
    | item hx hpart => exact h _ hx n hpart

@[simp] theorem numberless_object_iff {members : List (String × Json)} :
    (Json.object members).Numberless ↔ ∀ m ∈ members, m.2.Numberless := by
  constructor
  · exact fun h m hm n hpart => h n (hpart.trans (part_of_mem_members hm))
  · intro h n hpart
    cases hpart with
    | value hm hpart => exact h _ hm n hpart

mutual
/-- The compact text lays out the lexemes of the value. -/
theorem layout_compact : ∀ x : Json, x.Numberless → Layout x.lexemes x.compact.toList
  | .null, _ => .single (.word rfl)
  | .bool true, _ => .single (.word rfl)
  | .bool false, _ => .single (.word rfl)
  | .number n, h => absurd .self (h n)
  | .string s, _ => .single .string
  | .array items, h => by
    have hitems := layout_items items (numberless_array_iff.mp h)
    simpa [compact, lexemes] using hitems.mark (c := '[') rfl
  | .object members, h => by
    have hmembers := layout_members members (numberless_object_iff.mp h)
    simpa [compact, lexemes] using hmembers.mark (c := '\x7b') rfl

private theorem layout_items : ∀ items : List Json, (∀ x ∈ items, x.Numberless) →
    Layout (lexemesOfItems items) ((compactItems items).toList ++ [']'])
  | [], _ => .single (.mark rfl)
  | [x], h => (layout_compact x (h x List.mem_cons_self)).append (.single (.mark rfl))
  | x :: y :: rest, h => by
    have hx := layout_compact x (h x List.mem_cons_self)
    have hrest := layout_items (y :: rest) fun z hz => h z (List.mem_cons_of_mem _ hz)
    simpa [compactItems, lexemesOfItems, lexemesOfMoreItems] using
      hx.append (hrest.mark (c := ',') rfl)

private theorem layout_members : ∀ members : List (String × Json), (∀ m ∈ members, m.2.Numberless) →
    Layout (lexemesOfMembers members) ((compactMembers members).toList ++ ['\x7d'])
  | [], _ => .single (.mark rfl)
  | [(k, x)], h => by
    have hx := layout_compact x (h (k, x) List.mem_cons_self)
    have hrest := hx.append (.single (.mark (c := '\x7d') rfl))
    simpa [compactMembers, lexemesOfMembers, lexemesOfMoreMembers] using
      Layout.lexeme (.string (s := k)) (hrest.mark (c := ':') rfl)
  | (k, x) :: m :: rest, h => by
    have hx := layout_compact x (h (k, x) List.mem_cons_self)
    have hmembers := layout_members (m :: rest) fun z hz => h z (List.mem_cons_of_mem _ hz)
    have hrest := hx.append (hmembers.mark (c := ',') rfl)
    simpa [compactMembers, lexemesOfMembers, lexemesOfMoreMembers] using
      Layout.lexeme (.string (s := k)) (hrest.mark (c := ':') rfl)
end

end Json

end SchemaGuard
