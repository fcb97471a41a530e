import SchemaGuard.Guard.Emitter

/-!
How the emitted names are spelled. Whatever a use site looks like, the part of a binding's name
behind the guard prefix is empty or a plain identifier: the site begins with the name of a type, all
characters that no name can have become underscores, and a number comes after an underscore.
-/

set_option autoImplicit false
set_option relaxedAutoImplicit false

namespace SchemaGuard

namespace Identifier

theorem isPart_of_isStart {c : Char} (h : isStart c = true) : isPart c = true := by
  rw [isPart, h, Bool.true_or]

-- in the character table all letters stand after the digits
private theorem nine_lt_of_isAlpha {c : Char} (h : c.isAlpha = true) : '9'.toNat < c.toNat := by
  have hA : '9'.toNat < 'A'.val.toNat := by decide
  have ha : '9'.toNat < 'a'.val.toNat := by decide
  have hletter : (c.isUpper || c.isLower) = true := h
  rcases Bool.or_eq_true_iff.mp hletter with hupper | hlower
  · have hge : 'A'.val ≤ c.val := (of_decide_eq_true hupper).1
    exact Nat.lt_of_lt_of_le hA (UInt32.le_iff_toNat_le.mp hge)
  · have hge : 'a'.val ≤ c.val := of_decide_eq_true (Bool.and_eq_true_iff.mp hlower).1
    exact Nat.lt_of_lt_of_le ha (UInt32.le_iff_toNat_le.mp hge)

theorem isDigit_eq_false_of_isStart {c : Char} (h : isStart c = true) : c.isDigit = false := by
  simp only [isStart, Bool.or_eq_true, beq_iff_eq] at h
  rcases h with (h | rfl) | rfl
  · rw [Bool.eq_false_iff, ne_eq, Char.isDigit_iff_toNat]
    exact fun hdigit => Nat.not_lt.mpr hdigit.2 (nine_lt_of_isAlpha h)
  · rfl
  · rfl

theorem isPlain_iff {name : String} : isPlain name = true ↔
    ∃ c rest, name.toList = c :: rest ∧ isStart c = true ∧ ∀ d ∈ rest, isPart d = true := by
  unfold isPlain
  cases name.toList with
  | nil => simp
  | cons c rest =>
    simp only [Bool.and_eq_true, List.all_eq_true, List.cons.injEq]
    exact ⟨fun h => ⟨c, rest, ⟨rfl, rfl⟩, h⟩, fun ⟨_, _, ⟨hc, hrest⟩, h⟩ => hc ▸ hrest ▸ h⟩

theorem isPart_of_isPlain {name : String} (h : isPlain name = true) :
    ∀ c ∈ name.toList, isPart c = true := by
  obtain ⟨c, rest, hname, hc, hrest⟩ := isPlain_iff.mp h
  rw [hname]
  exact List.forall_mem_cons.mpr ⟨isPart_of_isStart hc, hrest⟩

theorem isPlain_append {a b : String} (ha : isPlain a = true)
    (hb : ∀ c ∈ b.toList, isPart c = true) : isPlain (a ++ b) = true := by
  obtain ⟨c, rest, hname, hc, hrest⟩ := isPlain_iff.mp ha
  refine isPlain_iff.mpr ⟨c, rest ++ b.toList, ?_, hc, fun d hd => ?_⟩
  · rw [String.toList_append, hname, List.cons_append]
  · exact (List.mem_append.mp hd).elim (hrest d) (hb d)

theorem isPlain_of_isUsable {name : String} (h : isUsable name = true) : isPlain name = true :=
  (Bool.and_eq_true_iff.mp h).1

theorem isUsable_iff {name : String} :
    isUsable name = true ↔ isPlain name = true ∧ name ∉ reserved := by
  simp [isUsable]

/-- What a name can go on with after a prefix: nothing, or what is a plain identifier of its own. -/
def IsEnding (text : String) : Prop := text = "" ∨ isPlain text = true

theorem IsEnding.isPart {text : String} (h : IsEnding text) :
    ∀ c ∈ text.toList, isPart c = true := by
  rcases h with rfl | h
  · simp
  · exact isPart_of_isPlain h

theorem IsEnding.append {a b : String} (ha : IsEnding a) (hb : IsEnding b) :
    IsEnding (a ++ b) := by
  rcases ha with rfl | ha
  · rwa [String.empty_append]
  · exact .inr (isPlain_append ha hb.isPart)

theorem isEnding_number (n : Nat) : IsEnding ("_" ++ toString n) := by
  refine .inr (isPlain_append (by decide) fun c hc => ?_)
  have hdigit : c.isDigit = true := by
    rw [Nat.toString_eq_ofList_toDigits, String.toList_ofList] at hc
    exact Nat.isDigit_of_mem_toDigits (by omega) (by omega) hc
  rw [isPart, hdigit, Bool.or_true]

end Identifier

namespace Options

variable {o : Options}

private theorem clash?_eq_none_iff {given : String} : clash? given = none ↔
    (∀ name ∈ locals, given.length < name.length → ¬ given.toList <+: name.toList) ∧
      ¬ given.toList <+: checkerPrefix.toList ∧ ¬ checkerPrefix.toList <+: given.toList := by
  simp only [clash?]
  split
  · next name hfind =>
    have hname := List.find?_some hfind
    simp only [Bool.and_eq_true, decide_eq_true_eq, List.isPrefixOf_iff_prefix] at hname
    simp only [reduceCtorEq, false_iff]
    exact fun h => h.1 name (List.mem_of_find?_eq_some hfind) hname.1 hname.2
  · next hfind =>
    have hnone := List.find?_eq_none.mp hfind
    simp only [Bool.and_eq_true, decide_eq_true_eq, List.isPrefixOf_iff_prefix, not_and] at hnone
    simp only [Bool.or_eq_true, List.isPrefixOf_iff_prefix, ite_eq_right_iff, reduceCtorEq,
      imp_false, not_or]
    exact (and_iff_right hnone).symm

private theorem validate_eq_ok_iff :
    o.validate = .ok () ↔ Identifier.isUsable o.guardPrefix = true ∧
    (∀ name ∈ locals, o.guardPrefix.length < name.length →
      ¬ o.guardPrefix.toList <+: name.toList) ∧
    ¬ o.guardPrefix.toList <+: checkerPrefix.toList ∧
    ¬ checkerPrefix.toList <+: o.guardPrefix.toList := by
  rw [← clash?_eq_none_iff, validate]
  cases Identifier.isUsable o.guardPrefix <;> cases clash? o.guardPrefix <;> simp

theorem isUsable_of_validate (h : o.validate = .ok ()) :
    Identifier.isUsable o.guardPrefix = true := (validate_eq_ok_iff.mp h).1

theorem prefix_guardName (o : Options) (text : String) :
    o.guardPrefix.toList <+: (o.guardName text).toList := by
  rw [guardName, String.toList_append]
  exact List.prefix_append _ _

theorem guardName_notMem_locals (h : o.validate = .ok ()) {text : String} (htext : text ≠ "") :
    o.guardName text ∉ locals := by
  intro hmem
  refine (validate_eq_ok_iff.mp h).2.1 _ hmem ?_ (o.prefix_guardName text)
  have hlength : 0 < text.length := by
    rw [Nat.pos_iff_ne_zero]
    exact fun hzero => htext (String.length_eq_zero_iff.mp hzero)
  rw [guardName, String.length_append]
  omega

/-- Nothing with a valid prefix is named like a checker that is handed to a factory. -/
theorem not_checkerPrefix_guardName (h : o.validate = .ok ()) (text : String) :
    ¬ checkerPrefix.toList <+: (o.guardName text).toList := by
  intro hchecker
  obtain ⟨_, _, hshorter, hlonger⟩ := validate_eq_ok_iff.mp h
  exact (List.prefix_or_prefix_of_prefix (o.prefix_guardName text) hchecker).elim hshorter hlonger

end Options

namespace Script

open Identifier (isPart isStart isPlain IsEnding)

private theorem isNamePart_eq (c : Char) : isNamePart c = isPart c := by
  simp only [isNamePart, isPart, isStart, Char.isAlphanum]
  cases c.isAlpha <;> cases c.isDigit <;> simp

private theorem wordFrom_cons (reversed : List Char) (c : Char) (rest : List Char) :
    wordFrom reversed (c :: rest) = wordFrom reversed rest ∨
      ∃ d, isPart d = true ∧ wordFrom reversed (c :: rest) = wordFrom (d :: reversed) rest := by
  let d := if isNamePart c then c else '_'
  have hd : isPart d = true := by
    change isPart (if isNamePart c then c else '_') = true
    split
    · next hc => rwa [← isNamePart_eq]
    · decide
  have hstep : wordFrom reversed (c :: rest) = if d = '_' ∧ reversed.head? = some '_' then
      wordFrom reversed rest else wordFrom (d :: reversed) rest := rfl
  rw [hstep]
  split
  · exact .inl rfl
  · exact .inr ⟨d, hd, rfl⟩

private theorem suffix_wordFrom (reversed cs : List Char) : reversed <:+ wordFrom reversed cs := by
  induction cs generalizing reversed with
  | nil => exact List.suffix_refl _
  | cons c rest ih =>
    rcases wordFrom_cons reversed c rest with h | ⟨d, _, h⟩
    · exact h ▸ ih reversed
    · exact h ▸ (List.suffix_cons d reversed).trans (ih (d :: reversed))

private theorem isPart_of_mem_wordFrom {reversed cs : List Char}
    (h : ∀ c ∈ reversed, isPart c = true) : ∀ c ∈ wordFrom reversed cs, isPart c = true := by
  induction cs generalizing reversed with
  | nil => exact h
  | cons c rest ih =>
    rcases wordFrom_cons reversed c rest with hstep | ⟨d, hd, hstep⟩
    · exact hstep ▸ ih h
    · exact hstep ▸ ih (List.forall_mem_cons.mpr ⟨hd, h⟩)

private theorem isPart_of_mem_word {text : String} : ∀ c ∈ (word text).toList, isPart c = true := by
  intro c hc
  rw [word, String.toList_ofList, List.mem_reverse] at hc
  exact isPart_of_mem_wordFrom (by simp) c (List.dropWhile_sublist _ |>.mem hc)

private theorem isEnding_word {text : String} {c : Char} {rest : List Char}
    (h : text.toList = c :: rest) (hc : isStart c = true) : IsEnding (word text) := by
  let reversed := (wordFrom [] text.toList).dropWhile (· == '_')
  have hword : (word text).toList = reversed.reverse := by rw [word, String.toList_ofList]
  have hwritten : [c] <:+ wordFrom [] text.toList := by
    have hpart : isNamePart c = true := by
      rw [isNamePart_eq]
      exact Identifier.isPart_of_isStart hc
    have hfirst : wordFrom [] text.toList = wordFrom [c] rest := by
      simp [h, wordFrom, hpart]
    rw [hfirst]
    exact suffix_wordFrom [c] rest
  cases hempty : reversed with
  | nil =>
    refine .inl (String.toList_inj.mp ?_)
    rw [hword, hempty]
    rfl
  | cons last before =>
    -- What is kept of the reversed word ends where the word began.
    have hkept : [c] <:+ reversed := by
      refine List.suffix_of_suffix_length_le hwritten (List.dropWhile_suffix _) ?_
      simp [hempty]
    obtain ⟨more, hmore⟩ := hkept
    have hlist : (word text).toList = c :: more.reverse := by
      rw [hword, ← hmore, List.reverse_append]
      rfl
    refine .inr (Identifier.isPlain_iff.mpr ⟨c, more.reverse, hlist, hc, fun d hd => ?_⟩)
    exact isPart_of_mem_word d (hlist ▸ List.mem_cons_of_mem c hd)

theorem isEnding_site {name : String} (h : isPlain name = true) (args : List TypeRef) :
    IsEnding (word (TypeRef.generic name args).display) := by
  obtain ⟨c, rest, hname, hc, _⟩ := Identifier.isPlain_iff.mp h
  have hdisplay : (TypeRef.generic name args).display.toList
      = c :: (rest ++ ("<" ++ TypeRef.displayList args ++ ">").toList) := by
    simp [TypeRef.display, hname]
  exact isEnding_word hdisplay hc

end Script

end SchemaGuard
