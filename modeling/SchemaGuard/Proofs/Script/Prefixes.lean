import Mathlib.Data.List.Infix
import SchemaGuard.Proofs.Script.Spelling

/-!
Which prefixes are sound. Validation looks at the prefix alone: at its length, and at whether it and
a name that the emitted code has a use for begin alike. It forbids exactly what it has to, for what
is missing behind a forbidden prefix is the name that some type may have.
-/

set_option autoImplicit false
set_option relaxedAutoImplicit false

namespace SchemaGuard.Options

variable {o : Options} {given word : String}

private theorem isUsable_of_ends (hword : word ∈ checkerPrefix :: locals) {rest : List Char}
    (hrest : rest <:+ word.toList) (hsome : rest ≠ []) (hless : rest ≠ word.toList) :
    Identifier.isUsable (String.ofList rest) = true := by
  -- There are finitely many words with finitely many ends.
  have hall : ((checkerPrefix :: locals).all fun word => word.toList.tails.all fun rest =>
      rest == [] || rest == word.toList || Identifier.isUsable (String.ofList rest)) = true := by
    decide
  have husable := List.all_eq_true.mp (List.all_eq_true.mp hall word hword) rest
    ((List.mem_tails _ _).mpr hrest)
  simpa [hsome, hless] using husable

private theorem exists_type_of_prefix (hgiven : Identifier.isUsable given = true)
    (hword : word ∈ checkerPrefix :: locals) (hbegins : given.toList <+: word.toList)
    (hne : given ≠ word) : ∃ type, Identifier.isUsable type = true ∧ given ++ type = word := by
  obtain ⟨rest, hrest⟩ := hbegins
  have hsome : rest ≠ [] := by
    rintro rfl
    rw [List.append_nil] at hrest
    exact hne (String.toList_inj.mp hrest)
  have hless : rest ≠ word.toList := by
    intro heq
    obtain ⟨c, more, hlist, _⟩ := Identifier.isPlain_iff.mp (Identifier.isPlain_of_isUsable hgiven)
    rw [heq, List.append_left_eq_self, hlist] at hrest
    cases hrest
  refine ⟨String.ofList rest, isUsable_of_ends hword ⟨_, hrest⟩ hsome hless, ?_⟩
  rw [← String.toList_inj, String.toList_append, String.toList_ofList, hrest]

-- a prefix that has the whole of the checkers' prefix leaves nothing missing, so any type will do
private theorem exists_type_of_checkerPrefix (hgiven : Identifier.isUsable given = true)
    (h : given.toList <+: checkerPrefix.toList ∨ checkerPrefix.toList <+: given.toList) :
    ∃ type, Identifier.isUsable type = true ∧
      checkerPrefix.toList <+: (given ++ type).toList := by
  by_cases hlonger : checkerPrefix.toList <+: given.toList
  · refine ⟨"T", by decide, ?_⟩
    rw [String.toList_append]
    exact hlonger.trans (List.prefix_append _ _)
  · have hshorter := h.resolve_right hlonger
    have hne : given ≠ checkerPrefix := by
      rintro rfl
      exact hlonger (List.prefix_refl _)
    obtain ⟨type, htype, hspelled⟩ :=
      exists_type_of_prefix hgiven List.mem_cons_self hshorter hne
    exact ⟨type, htype, hspelled ▸ List.prefix_refl _⟩

private theorem exists_type_of_clash? (hgiven : Identifier.isUsable given = true)
    (h : clash? given = some word) : ∃ type, Identifier.isUsable type = true ∧
      (given ++ type = word ∧ word ∈ locals ∨
        word = checkerPrefix ∧ checkerPrefix.toList <+: (given ++ type).toList) := by
  simp only [clash?] at h
  split at h
  · next name hfind =>
    obtain rfl := Option.some.inj h
    have hlocal := List.mem_of_find?_eq_some hfind
    have hname := List.find?_some hfind
    simp only [Bool.and_eq_true, decide_eq_true_eq, List.isPrefixOf_iff_prefix] at hname
    have hne : given ≠ name := by
      rintro rfl
      exact Nat.lt_irrefl _ hname.1
    obtain ⟨type, htype, hspelled⟩ :=
      exists_type_of_prefix hgiven (List.mem_cons_of_mem _ hlocal) hname.2 hne
    exact ⟨type, htype, .inl ⟨hspelled, hlocal⟩⟩
  · split at h
    · next hchecker =>
      obtain rfl := Option.some.inj h
      simp only [Bool.or_eq_true, List.isPrefixOf_iff_prefix] at hchecker
      obtain ⟨type, htype, hspelled⟩ := exists_type_of_checkerPrefix hgiven hchecker
      exact ⟨type, htype, .inr ⟨rfl, hspelled⟩⟩
    · cases h

private theorem ne_empty_of_isUsable {type : String} (h : Identifier.isUsable type = true) :
    type ≠ "" := by
  rintro rfl
  exact absurd h (by decide)

private theorem validate_eq_ok_iff_clash? : o.validate = .ok () ↔
    Identifier.isUsable o.guardPrefix = true ∧ clash? o.guardPrefix = none := by
  rw [validate]
  cases Identifier.isUsable o.guardPrefix <;> cases clash? o.guardPrefix <;> simp

private theorem validate_eq_shadowed_iff : o.validate = .error (.shadowedPrefix given word) ↔
    Identifier.isUsable o.guardPrefix = true ∧ o.guardPrefix = given ∧
      clash? o.guardPrefix = some word := by
  rw [validate]
  cases Identifier.isUsable o.guardPrefix <;> cases clash? o.guardPrefix <;> simp

/-- A prefix is valid just when it is a usable name and with no type's name behind it spells a name
that the emitted code binds or reads, or one that begins as those of the checkers do. Where another
name is reported, some type's name behind the prefix does spell it. -/
theorem validate_iff_spells_none (o : Options) :
    (o.validate = .ok () ↔ Identifier.isUsable o.guardPrefix = true ∧
      ¬ ∃ type, Identifier.isUsable type = true ∧
        (o.guardName type ∈
            ["obj", "guard", "fields", "k", "v", "b", "Object", "Array", "Number"] ∨
          "check_".toList <+: (o.guardName type).toList)) ∧
    ∀ clash, o.validate = .error (.shadowedPrefix o.guardPrefix clash) →
      ∃ type, Identifier.isUsable type = true ∧
        (o.guardName type = clash ∨
          clash = "check_" ∧ "check_".toList <+: (o.guardName type).toList) := by
  refine ⟨⟨fun h => ⟨isUsable_of_validate h, ?_⟩, ?_⟩, ?_⟩
  · rintro ⟨type, htype, hlocal | hchecker⟩
    · exact guardName_notMem_locals h (ne_empty_of_isUsable htype) hlocal
    · exact not_checkerPrefix_guardName h type hchecker
  · rintro ⟨hgiven, hnone⟩
    refine validate_eq_ok_iff_clash?.mpr ⟨hgiven, Option.eq_none_iff_forall_ne_some.mpr ?_⟩
    intro word hclash
    obtain ⟨type, htype, ⟨hspelled, hlocal⟩ | ⟨_, hchecker⟩⟩ :=
      exists_type_of_clash? hgiven hclash
    · have hmem : o.guardName type ∈ locals := by
        rw [guardName, hspelled]
        exact hlocal
      exact hnone ⟨type, htype, .inl hmem⟩
    · exact hnone ⟨type, htype, .inr hchecker⟩
  · intro clash h
    obtain ⟨hgiven, _, hclash⟩ := validate_eq_shadowed_iff.mp h
    obtain ⟨type, htype, ⟨hspelled, _⟩ | hchecker⟩ := exists_type_of_clash? hgiven hclash
    · exact ⟨type, htype, .inl hspelled⟩
    · exact ⟨type, htype, .inr hchecker⟩

theorem validate_iff_spells_none_gu :
    ({ guardPrefix := "gu" } : Options).validate = .error (.shadowedPrefix "gu" "guard") ∧
      ∃ type, Identifier.isUsable type = true ∧
        (({ guardPrefix := "gu" } : Options).guardName type = "guard" ∨
          "guard" = "check_" ∧
            "check_".toList <+: (({ guardPrefix := "gu" } : Options).guardName type).toList) := by
  have h : ({ guardPrefix := "gu" } : Options).validate =
      .error (.shadowedPrefix "gu" "guard") := by
    decide
  exact ⟨h, (validate_iff_spells_none { guardPrefix := "gu" }).2 "guard" h⟩

end SchemaGuard.Options
