import SchemaGuard.Proofs.Resolution.Legal
import SchemaGuard.Proofs.Resolution.Resolved

/-!
Uses and fields. A reference that stands in no definition is judged as the type of the one field of
a struct would be that is added to the schema for it: a definition with a new name changes neither
what is found at the occurrences before it nor which aliases are cyclic, so the errors of the larger
schema are those of the reference, at the field's site.
-/

set_option autoImplicit false
set_option relaxedAutoImplicit false

namespace SchemaGuard

/-- The error of a reference at another site; other errors stand where they are. -/
def SchemaError.movedTo (site : Site) : SchemaError → SchemaError
  | .unresolvedReference _ target => .unresolvedReference site target
  | .arityMismatch _ target expected found => .arityMismatch site target expected found
  | .unboundParameter _ param => .unboundParameter site param
  | .invalidParameterUse _ param => .invalidParameterUse site param
  | e => e

private theorem withEarlier_concat {α : Type} (items : List α) (x : α) :
    withEarlier (items ++ [x]) = withEarlier items ++ [(items, x)] := by
  induction items with
  | nil => rfl
  | cons y items ih => simp [withEarlier, ih]

namespace Schema

variable {s : Schema} {d : Definition} {t : TypeRef} {scope : List String}

private theorem targetViolation?_movedTo (site site' : Site) (name : String) (found : Nat) :
    s.targetViolation? site' scope name found
      = (s.targetViolation? site scope name found).map (SchemaError.movedTo site') := by
  unfold targetViolation?
  split
  · rfl
  · cases s.find? name with
    | none => rfl
    | some d =>
      simp only
      split <;> rfl

private theorem violation?_movedTo (site site' : Site) (node : TypeRef) :
    s.violation? (.node site' scope node)
      = (s.violation? (.node site scope node)).map (SchemaError.movedTo site') := by
  cases node with
  | parameter name =>
    simp only [violation?]
    split <;> rfl
  | named name => exact targetViolation?_movedTo site site' name 0
  | generic name args => exact targetViolation?_movedTo site site' name args.length
  | _ => rfl

private theorem referenceErrors_eq_filterMap (site : Site) (t : TypeRef) :
    s.referenceErrors site scope t
      = t.nodes.filterMap fun node => s.violation? (.node site scope node) := by
  rw [referenceErrors_eq, Occurrence.ofReference, List.filterMap_map]
  rfl

private theorem referenceErrors_movedTo (site site' : Site) (t : TypeRef) :
    s.referenceErrors site' scope t
      = (s.referenceErrors site scope t).map (SchemaError.movedTo site') := by
  rw [referenceErrors_eq_filterMap, referenceErrors_eq_filterMap, List.map_filterMap]
  exact congrArg (fun f => t.nodes.filterMap f)
    (funext fun node => violation?_movedTo site site' node)

private theorem find?_push_of_some {name : String} {e : Definition} (h : s.find? name = some e) :
    (s.push d).find? name = some e := by
  have h' : (s.types.find? fun d => d.name == name) = some e := h
  rw [find?, push, List.find?_append, h', Option.some_or]

private theorem find?_push_of_ne {name : String} (h : d.name ≠ name) :
    (s.push d).find? name = s.find? name := by
  have hother : ([d].find? fun d => d.name == name) = none := by simp [h]
  rw [find?, push, List.find?_append, hother, Option.or_none, find?]

private theorem targetViolation?_push_of_none {site : Site} {name : String} {found : Nat}
    (h : s.targetViolation? site scope name found = none) :
    (s.push d).targetViolation? site scope name found = none := by
  unfold targetViolation? at h ⊢
  split at h
  · cases h
  · next hscope =>
    rw [if_neg hscope]
    cases hfind : s.find? name with
    | none => simp [hfind] at h
    | some e =>
      rw [find?_push_of_some hfind]
      rwa [hfind] at h

private theorem violation?_push_of_none {o : Occurrence} (h : s.violation? o = none) :
    (s.push d).violation? o = none := by
  cases o with
  | name role name => exact h
  | entry listing earlier name => exact h
  | node site scope node =>
    cases node with
    | named name => exact targetViolation?_push_of_none h
    | generic name args => exact targetViolation?_push_of_none h
    | _ => exact h

private theorem referenceErrors_push (site : Site)
    (h : ∀ node ∈ t.nodes, ∀ args, node.target? ≠ some (d.name, args)) :
    (s.push d).referenceErrors site scope t = s.referenceErrors site scope t := by
  rw [referenceErrors_eq_filterMap, referenceErrors_eq_filterMap]
  refine List.filterMap_congr fun node hnode => ?_
  have htarget : ∀ {name args}, node.target? = some (name, args) → ∀ found,
      (s.push d).targetViolation? site scope name found
        = s.targetViolation? site scope name found := by
    intro name args hname found
    have hne : d.name ≠ name := by
      rintro rfl
      exact h node hnode args hname
    rw [targetViolation?, targetViolation?, find?_push_of_ne hne]
  cases node with
  | named name => exact htarget rfl 0
  | generic name args => exact htarget rfl args.length
  | _ => rfl

private theorem occurrences_push (s : Schema) (d : Definition) :
    (s.push d).occurrences = (Occurrence.ofNames s.types ++
      [.name .type d.name, .entry .types (s.types.map Definition.name) d.name]) ++
      (s.types.flatMap Occurrence.ofBody ++ Occurrence.ofBody d) := by
  simp [occurrences, push, Occurrence.ofNames, withEarlier_concat]

private theorem violations_push (h : s.violations = [])
    (husable : Identifier.isUsable d.name = true)
    (fresh : ∀ e ∈ s.types, e.name ≠ d.name) : (s.push d).violations = (s.push d).bodyErrors d := by
  have hkept : ∀ o ∈ s.occurrences, (s.push d).violation? o = none := fun o ho =>
    violation?_push_of_none (List.filterMap_eq_nil_iff.mp h o ho)
  have hnames : (Occurrence.ofNames s.types).filterMap (s.push d).violation? = [] :=
    List.filterMap_eq_nil_iff.mpr fun o ho => hkept o (List.mem_append_left _ ho)
  have hbodies : (s.types.flatMap Occurrence.ofBody).filterMap (s.push d).violation? = [] :=
    List.filterMap_eq_nil_iff.mpr fun o ho => hkept o (List.mem_append_right _ ho)
  have hnew : d.name ∉ s.types.map Definition.name := by
    intro hmem
    obtain ⟨e, he, hname⟩ := List.mem_map.mp hmem
    exact fresh e he hname
  rw [violations, occurrences_push, bodyErrors_eq]
  simp [hnames, hbodies, violation?, husable, hnew]

private theorem alias?_push (fresh : ∀ e ∈ s.types, e.name ≠ d.name) (hd : ∀ a, d ≠ .alias a)
    (name : String) : (s.push d).alias? name = s.alias? name := by
  by_cases hname : d.name = name
  · have hnone : s.find? name = none := by
      refine List.find?_eq_none.mpr fun e he => ?_
      simpa [← hname] using fresh e he
    have hfound : (s.push d).find? name = some d := by
      have hnone' : (s.types.find? fun d => d.name == name) = none := hnone
      simp [find?, push, List.find?_append, hnone', hname]
    rw [alias?, alias?, hnone, hfound]
    cases d with
    | «alias» a => exact absurd rfl (hd a)
    | _ => rfl
  · rw [alias?, alias?, find?_push_of_ne hname]

private theorem cyclicAliases_push (fresh : ∀ e ∈ s.types, e.name ≠ d.name)
    (hd : ∀ a, d ≠ .alias a) :
    (s.push d).cyclicAliases = s.cyclicAliases := by
  have hcyclic : ∀ a, (s.push d).isCyclic a = s.isCyclic a := fun a =>
    expandsTo_congr (alias?_push fresh hd) a.name expansionLimit a.target
  have htypes : (s.push d).types = s.types ++ [d] := rfl
  rw [cyclicAliases, cyclicAliases, htypes, List.filterMap_append]
  simp only [hcyclic]
  cases d with
  | «alias» a => exact absurd rfl (hd a)
  | _ => exact List.append_nil _

private theorem errors_push (h : s.errors = []) (husable : Identifier.isUsable d.name = true)
    (fresh : ∀ e ∈ s.types, e.name ≠ d.name) (hd : ∀ a, d ≠ .alias a) :
    (s.push d).errors = (s.push d).bodyErrors d := by
  have hviolations : s.violations = [] := by
    by_contra hsome
    rw [errors_eq, if_neg hsome] at h
    exact hsome h
  have hcycles : (s.push d).cyclicAliases = [] := by
    rw [cyclicAliases_push fresh hd]
    rwa [errors_eq, if_pos hviolations] at h
  rw [errors_eq, violations_push hviolations husable fresh, hcycles]
  split
  · next hnone => exact hnone.symm
  · rfl

private theorem bodyErrors_struct_singleton (s : Schema) (name : String) (f : Field) :
    s.bodyErrors (.struct ⟨name, [], [f]⟩)
      = s.referenceErrors { type := name, field := some f.name } [] f.type := by
  simp [bodyErrors, paramErrors, fieldErrors, Site.atField]

end Schema

namespace ResolvedSchema

variable {r : ResolvedSchema}

private theorem errors_push_use (r : ResolvedSchema) {name : String} {f : Field}
    (husable : Identifier.isUsable name = true) (fresh : ∀ d ∈ r.types, d.name ≠ name)
    (hf : ∀ node ∈ f.type.nodes, ∀ args, node.target? ≠ some (name, args)) :
    (r.toSchema.push (.struct ⟨name, [], [f]⟩)).errors
      = (r.schema.referenceErrors Site.use [] f.type).map
          (.movedTo { type := name, field := some f.name }) := by
  have hpush := Schema.errors_push (d := .struct ⟨name, [], [f]⟩) r.noErrors husable fresh (by simp)
  calc (r.toSchema.push (.struct ⟨name, [], [f]⟩)).errors
      = (r.schema.push (.struct ⟨name, [], [f]⟩)).referenceErrors
          { type := name, field := some f.name } [] f.type := by
        rw [← Schema.bodyErrors_struct_singleton]
        exact hpush
    _ = r.schema.referenceErrors { type := name, field := some f.name } [] f.type :=
        Schema.referenceErrors_push (d := .struct ⟨name, [], [f]⟩) _ hf
    _ = _ := Schema.referenceErrors_movedTo Site.use _ f.type

private theorem checkUse_eq_error {t : TypeRef} {errors : List SchemaError}
    (h : r.checkUse t = .error errors) :
    r.schema.referenceErrors Site.use [] t = errors ∧ errors ≠ [] := by
  rw [checkUse] at h
  split at h
  · cases h
  · next hsome =>
    cases h
    exact ⟨rfl, hsome⟩

private theorem checkUse_substitute {d : Definition} (hd : d ∈ r.types) {args : List TypeRef}
    (hlength : args.length = d.params.length) (hargs : ∀ a ∈ args, r.checkUse a = .ok ())
    {t : TypeRef} (ht : t ∈ d.nodes) : r.checkUse (t.substitute d.params args) = .ok () := by
  have hlegal := (r.wellFormed.isLegal hd ht).substitute hlength.symm fun a ha =>
    checkUse_eq_ok_iff.mp (hargs a ha)
  exact checkUse_eq_ok_iff.mpr hlegal

/-- A use is accepted just when the schema resolves with one more struct, under a new name, whose
only field has the use for its type; and where it is not, resolution reports the same errors in the
same order at that field. Whatever stands in the body of a definition is an accepted use with
accepted uses in the place of its parameters. -/
theorem checkUse_agrees_with_resolve (r : ResolvedSchema) :
    (∀ (name : String) (f : Field), Identifier.isUsable name = true →
      (∀ d ∈ r.types, d.name ≠ name) →
      (∀ node ∈ f.type.nodes, ∀ args, node.target? ≠ some (name, args)) →
      (r.checkUse f.type = .ok () ↔
        ∃ r', (r.toSchema.push (.struct ⟨name, [], [f]⟩)).resolve = .ok r') ∧
      ∀ errors, r.checkUse f.type = .error errors →
        (r.toSchema.push (.struct ⟨name, [], [f]⟩)).resolve
          = .error (errors.map (.movedTo { type := name, field := some f.name }))) ∧
    ∀ d ∈ r.types, ∀ args : List TypeRef, args.length = d.params.length →
      (∀ a ∈ args, r.checkUse a = .ok ()) →
      ∀ t ∈ d.nodes, r.checkUse (t.substitute d.params args) = .ok () := by
  refine ⟨fun name f husable fresh hf => ?_, fun d hd args hlength hargs t ht =>
    checkUse_substitute hd hlength hargs ht⟩
  have herrors := r.errors_push_use husable fresh hf
  constructor
  · rw [Schema.exists_resolve_iff, ← Schema.errors_eq_nil_iff, herrors, List.map_eq_nil_iff,
      checkUse_eq_ok_iff]
    exact (Schema.referenceErrors_eq_nil_iff r.wellFormed.types_nodup).symm
  · intro errors h
    obtain ⟨rfl, hsome⟩ := checkUse_eq_error h
    rw [Schema.resolve, dif_neg, herrors]
    rw [herrors]
    simpa using hsome

def pending (type : TypeRef) : Field := ⟨"pending", .sequence (.generic "Signed" [type]), true⟩

theorem checkUse_agrees_with_resolve_outbox :
    (∃ r, (mailbox.toSchema.push (.struct ⟨"Outbox", [], [pending (.named "Inbox")]⟩)).resolve
      = .ok r) ∧
    (mailbox.toSchema.push
        (.struct ⟨"Outbox", [], [pending (.generic "Draft" [.parameter "T"])]⟩)).resolve
      = .error [.unresolvedReference { type := "Outbox", field := some "pending" } "Draft",
          .unboundParameter { type := "Outbox", field := some "pending" } "T"] ∧
    mailbox.checkUse ((TypeRef.parameter "T").substitute ["T"] [.named "Inbox"]) = .ok () := by
  obtain ⟨hstruct, hsubstitute⟩ := mailbox.checkUse_agrees_with_resolve
  obtain ⟨haccepted, _⟩ := hstruct "Outbox" (pending (.named "Inbox")) (by decide) (by decide)
    (by simp [pending, TypeRef.nodes, TypeRef.nodesOfAll, TypeRef.target?])
  obtain ⟨_, hrefused⟩ := hstruct "Outbox" (pending (.generic "Draft" [.parameter "T"]))
    (by decide) (by decide) (by simp [pending, TypeRef.nodes, TypeRef.nodesOfAll, TypeRef.target?])
  exact ⟨haccepted.mp (by decide), hrefused [.unresolvedReference .use "Draft",
    .unboundParameter .use "T"] (by decide), hsubstitute
    (.struct ⟨"Signed", ["T"], _⟩) (List.mem_cons_of_mem _ List.mem_cons_self) [.named "Inbox"] rfl
    (by decide) (.parameter "T") (by decide)⟩

end ResolvedSchema

end SchemaGuard
