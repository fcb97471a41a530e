import SchemaGuard.Proofs.Json.Tree
import SchemaGuard.Proofs.Text.Told

/-!
String literals. Whatever characters a text has, its literal has none below U+0020, no quotes that
are not escaped but those at its two ends, and it is read as the text.
-/

set_option autoImplicit false
set_option relaxedAutoImplicit false

namespace SchemaGuard

namespace Text

/-- The places, counted from `i` on, of the quotes that no backslash escapes. A backslash that is
not escaped itself escapes the character behind it. -/
def openQuotes (i : Nat) : List Char → List Nat
  | [] => []
  | '\\' :: _ :: rest => openQuotes (i + 2) rest
  | '"' :: rest => i :: openQuotes (i + 1) rest
  | _ :: rest => openQuotes (i + 1) rest

private theorem openQuotes_escape (i : Nat) (c : Char) (rest : List Char) :
    openQuotes i ('\\' :: c :: rest) = openQuotes (i + 2) rest := rfl

private theorem openQuotes_quote (i : Nat) (rest : List Char) :
    openQuotes i ('"' :: rest) = i :: openQuotes (i + 1) rest := rfl

private theorem openQuotes_plain {c : Char} (hquote : c ≠ '"') (hslash : c ≠ '\\') (i : Nat)
    (rest : List Char) : openQuotes i (c :: rest) = openQuotes (i + 1) rest := by
  rw [openQuotes.eq_def]
  split <;> simp_all

private theorem hexDigit_spec : ∀ n < 16,
    0x20 ≤ (hexDigit n).toNat ∧ hexDigit n ≠ '"' ∧ hexDigit n ≠ '\\' := by
  decide

private theorem escaped_cases (c : Char) :
    (∃ e, escaped c = ['\\', e] ∧ 0x20 ≤ e.toNat) ∨
    (∃ m < 16, ∃ n < 16, escaped c = ['\\', 'u', '0', '0', hexDigit m, hexDigit n]) ∨
    (escaped c = [c] ∧ c ≠ '"' ∧ c ≠ '\\' ∧ 0x20 ≤ c.toNat) := by
  unfold escaped
  split
  case h_8 hquote hslash _ _ _ _ _ =>
    split
    case isTrue hcontrol =>
      exact .inr (.inl ⟨_, by omega, _, Nat.mod_lt _ (by decide), rfl⟩)
    case isFalse hprinted =>
      exact .inr (.inr ⟨rfl, hquote, hslash, Nat.le_of_not_lt hprinted⟩)
  all_goals exact .inl ⟨_, rfl, by decide⟩

private theorem printed_escaped (c : Char) : ∀ d ∈ escaped c, 0x20 ≤ d.toNat := by
  rcases escaped_cases c with ⟨e, hescaped, he⟩ | ⟨m, hm, n, hn, hescaped⟩ | ⟨hescaped, _, _, hc⟩
  · simpa [hescaped] using he
  · simp [hescaped, (hexDigit_spec m hm).1, (hexDigit_spec n hn).1]
  · simpa [hescaped] using hc

private theorem openQuotes_escaped (i : Nat) (c : Char) (rest : List Char) :
    openQuotes i (escaped c ++ rest) = openQuotes (i + (escaped c).length) rest := by
  rcases escaped_cases c with
    ⟨e, hescaped, _⟩ | ⟨m, hm, n, hn, hescaped⟩ | ⟨hescaped, hquote, hslash, _⟩
  · rw [hescaped]
    exact openQuotes_escape i e rest
  · obtain ⟨_, hmquote, hmslash⟩ := hexDigit_spec m hm
    obtain ⟨_, hnquote, hnslash⟩ := hexDigit_spec n hn
    rw [hescaped]
    change openQuotes (i + 2 + 1 + 1) (hexDigit m :: hexDigit n :: rest) = _
    rw [openQuotes_plain hmquote hmslash, openQuotes_plain hnquote hnslash]
    rfl
  · rw [hescaped]
    exact openQuotes_plain hquote hslash i rest

private theorem openQuotes_flatMap (i : Nat) (cs rest : List Char) :
    openQuotes i (cs.flatMap escaped ++ rest)
      = openQuotes (i + (cs.flatMap escaped).length) rest := by
  induction cs generalizing i with
  | nil => rfl
  | cons c cs ih =>
    rw [List.flatMap_cons, List.append_assoc, openQuotes_escaped, ih, List.length_append,
      Nat.add_assoc]

/-- A literal has no control character, and so no line feed and no carriage return. -/
theorem printed_quoted (s : String) : ∀ c ∈ (quoted s).toList, 0x20 ≤ c.toNat := by
  intro c hc
  rw [toList_quoted] at hc
  rcases List.mem_append.mp hc with hc | hc
  · rcases List.mem_cons.mp hc with rfl | hc
    · decide
    · obtain ⟨d, _, hmem⟩ := List.mem_flatMap.mp hc
      exact printed_escaped d c hmem
  · obtain rfl := List.mem_singleton.mp hc
    decide

theorem openQuotes_quoted (s : String) :
    openQuotes 0 (quoted s).toList = [0, (quoted s).length - 1] := by
  have hlength : (quoted s).length = 1 + (s.toList.flatMap escaped).length + 1 := by
    rw [← String.length_toList, toList_quoted]
    simp [Nat.add_comm]
  rw [hlength, toList_quoted, List.cons_append, openQuotes_quote, openQuotes_flatMap,
    openQuotes_quote, openQuotes, Nat.zero_add, Nat.add_sub_cancel]

theorem quoted_injective : Function.Injective quoted := by
  intro s s' h
  exact (told_quoted (fun _ => True) s s' [] [] trivial trivial (by rw [h])).1

end Text

theorem Json.ofText_quoted (s : String) : Json.ofText (Text.quoted s) = .ok (.string s) := by
  obtain ⟨node, last, hread, hlast, hholds⟩ :=
    Node.ofText_layout (layout_compact (.string s) (numberless_string s))
  have htext : Node.ofText (Text.quoted s) = (node, [last]) := hread
  have hvalue : node.toJson depthLimit = .ok (.string s) := hholds.toJson (Nat.zero_le _)
  simp only [ofText, htext, hvalue, Node.head, hlast]
  rfl

end SchemaGuard
