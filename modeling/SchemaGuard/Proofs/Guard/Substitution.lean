import SchemaGuard.Proofs.Guard.Totality
import SchemaGuard.Proofs.Resolution.Legal

/-!
Environments and substitution. A guard looks a parameter up among the validators for the arguments
of the definition around it; conformance puts the arguments themselves in its place. A reference has
the same values either way, so an alias means its target, and a reference without parameters means
the same wherever it stands.
-/

set_option autoImplicit false
set_option relaxedAutoImplicit false

namespace SchemaGuard

/-- A legal application of a type, as a reference that stands in no definition. -/
theorem Schema.isLegal_generic {s : Schema} {d : Definition} (hd : d ∈ s.types)
    {args : List TypeRef} (hlength : args.length = d.params.length)
    (hargs : ∀ a ∈ args, a.IsLegal s []) : (TypeRef.generic d.name args).IsLegal s [] :=
  TypeRef.isLegal_generic_iff.mpr ⟨⟨List.not_mem_nil, d, hd, rfl, hlength.symm⟩, hargs⟩

namespace Guards

variable (g : Guards)

def validators (args : List TypeRef) : List Validator := args.map (g.reference Scope.empty [])

theorem mapM_validatorFor {args : List TypeRef}
    (hargs : ∀ a ∈ args, g.resolved.checkUse a = .ok ()) :
    args.mapM g.validatorFor = .ok (g.validators args) := by
  induction args with
  | nil => rfl
  | cons a args ih =>
    obtain ⟨ha, hargs⟩ := List.forall_mem_cons.mp hargs
    rw [List.mapM_cons, g.validatorFor_eq_ok_iff.mpr ⟨ha, rfl⟩, ih hargs]
    rfl

private theorem reference_validators (scope : Scope) (args : List TypeRef) (t : TypeRef) :
    g.reference scope (g.validators args) t
      = g.reference Scope.empty [] (t.substitute scope.params args) := by
  funext v
  let env := args.map fun a => (g.reference Scope.empty [] a, a)
  have hfst : env.map Prod.fst = g.validators args := List.map_map ..
  have hsnd : env.map Prod.snd = args := (List.map_map ..).trans (List.map_id args)
  have hconforms := g.reference_iff_conforms_substitute scope env
    (List.forall_mem_map.mpr fun a _ v => g.reference_iff_conforms a v) t v
  rw [hfst, hsnd] at hconforms
  rw [Bool.eq_iff_iff, hconforms, g.reference_iff_conforms]

private theorem reference_eq_of_closed {t : TypeRef} (ht : t.mentionsParameter = false)
    (scope scope' : Scope) (env env' : List Validator) :
    g.reference scope env t = g.reference scope' env' t := by
  have all : ∀ {ts : List TypeRef}, TypeRef.anyMentionsParameter ts = false →
      ∀ t ∈ ts, t.mentionsParameter = false := fun hts t ht => by
    simpa using List.any_eq_false.mp (TypeRef.anyMentionsParameter_eq_any _ ▸ hts) t ht
  induction t with
  | primitive p => rfl
  | named name => rw [reference_named, reference_named]
  | generic name args ih =>
    rw [reference_generic, reference_generic, List.map_congr_left fun a ha => ih a ha (all ht a ha)]
  | sequence inner ih =>
    funext v
    rw [reference_sequence, reference_sequence, ih ht]
  | parameter name => cases ht
  | map inner ih =>
    funext v
    rw [reference_map, reference_map, ih ht]
  | tuple elements ih =>
    funext v
    cases v with
    | array items =>
      simp only [reference_tuple]
      congr 1
      refine all_congr_of_mem fun p hp => ?_
      have hmem := (List.of_mem_zip hp).1
      rw [ih p.1 hmem (all ht p.1 hmem)]
    | _ => simp only [reference_tuple]
  | nullable inner ih =>
    funext v
    rw [reference_nullable, reference_nullable, ih ht]

private theorem reference_alias {a : Alias} (ha : .alias a ∈ g.schema.types) {args : List TypeRef}
    (hlength : args.length = a.params.length) :
    g.reference Scope.empty [] (.generic a.name args)
      = g.reference Scope.empty [] (a.target.substitute a.params args) := by
  have hfind : g.schema.find? a.name = some (.alias a) :=
    (Schema.find?_eq_some_iff g.wellFormed.types_nodup).mpr ⟨ha, rfl⟩
  have hgeneric : g.schema.generic? a.name args = some (.alias a) :=
    Schema.generic?_eq_some.mpr ⟨hfind, hlength.symm⟩
  have happlied : g.applied (.alias a) (g.validators args)
      = g.reference (Scope.of (.alias a)) (g.validators args) a.target :=
    funext (g.applied_alias _ hfind (by simp [validators, hlength]))
  rw [reference_generic, hgeneric]
  exact happlied.trans (g.reference_validators _ args a.target)

/-- In the body of a definition whose parameters are bound to the validators of arguments, every
reference is accepted with the arguments put in, and looking it up in the environment gives the
answers of the validator that it has then. So an alias has the values of its target, and a reference
that mentions no parameter means the same in every scope. -/
theorem reference_substitute :
    (∀ d ∈ g.schema.types, ∀ args : List TypeRef, args.length = d.params.length →
      (∀ a ∈ args, g.resolved.checkUse a = .ok ()) →
      ∃ ws, args.mapM g.validatorFor = .ok ws ∧ ∀ t ∈ d.nodes, ∃ w,
        g.validatorFor (t.substitute d.params args) = .ok w ∧ ∀ v,
          g.reference (Scope.of d) ws t v = w v ∧
            supply (g.backend ws) g.schema (Scope.of d) t v = w v) ∧
    (∀ a : Alias, .alias a ∈ g.schema.types → ∀ args : List TypeRef,
      args.length = a.params.length → (∀ b ∈ args, g.resolved.checkUse b = .ok ()) →
      ∃ w w', g.validatorFor (.generic a.name args) = .ok w ∧
        g.validatorFor (a.target.substitute a.params args) = .ok w' ∧ ∀ v, w v = w' v) ∧
    ∀ t : TypeRef, t.mentionsParameter = false → ∀ scope scope' env env' v,
      g.reference scope env t v = g.reference scope' env' t v := by
  have accepted : ∀ d ∈ g.schema.types, ∀ args : List TypeRef, args.length = d.params.length →
      (∀ a ∈ args, g.resolved.checkUse a = .ok ()) → ∀ t ∈ d.nodes,
      g.resolved.checkUse (t.substitute d.params args) = .ok () := by
    intro d hd args hlength hargs t ht
    have hlegal := (g.wellFormed.isLegal hd ht).substitute hlength.symm fun a ha =>
      ResolvedSchema.checkUse_eq_ok_iff.mp (hargs a ha)
    exact ResolvedSchema.checkUse_eq_ok_iff.mpr hlegal
  refine ⟨fun d hd args hlength hargs => ⟨_, g.mapM_validatorFor hargs, fun t ht => ?_⟩,
    fun a ha args hlength hargs => ?_, fun t ht scope scope' env env' v => ?_⟩
  · have hreference := g.reference_validators (Scope.of d) args t
    refine ⟨_, g.validatorFor_eq_ok_iff.mpr ⟨accepted d hd args hlength hargs t ht, rfl⟩,
      fun v => ⟨congrFun hreference v, ?_⟩⟩
    rw [g.supply_backend]
    exact congrFun hreference v
  · have htarget : a.target ∈ (Definition.alias a).nodes :=
      List.mem_flatMap.mpr ⟨a.target, List.mem_singleton_self _, a.target.mem_nodes_self⟩
    have hlegal := Schema.isLegal_generic ha hlength fun b hb =>
      ResolvedSchema.checkUse_eq_ok_iff.mp (hargs b hb)
    have htarget := accepted (.alias a) ha args hlength hargs a.target htarget
    exact ⟨_, _, g.validatorFor_eq_ok_iff.mpr ⟨ResolvedSchema.checkUse_eq_ok_iff.mpr hlegal, rfl⟩,
      g.validatorFor_eq_ok_iff.mpr ⟨htarget, rfl⟩,
      fun v => congrFun (g.reference_alias ha hlength) v⟩
  · rw [g.reference_eq_of_closed ht scope scope' env env']

/-- The lists in a nest of twice wrapped bytes, an alias of aliases, and a wrapped number inside a
nest of anything. -/
theorem reference_substitute_nests :
    (∃ ws, [TypeRef.generic "Twice" [.primitive .bytes]].mapM nests.validatorFor = .ok ws ∧ ∃ w,
      nests.validatorFor (.generic "Nest" [.sequence (.generic "Twice" [.primitive .bytes])])
        = .ok w ∧
      ∀ v, nests.reference (Scope.of nest) ws (.generic "Nest" [.sequence (.parameter "T")]) v
        = w v) ∧
    (∃ w w', nests.validatorFor (.generic "Twice" [.primitive .number]) = .ok w ∧
      nests.validatorFor (.nullable (.generic "Same" [.generic "Same" [.primitive .number]]))
        = .ok w' ∧ ∀ v, w v = w' v) ∧
    ∀ v, nests.reference (Scope.of nest) [fun _ => true] (.generic "Twice" [.primitive .number]) v
      = nests.reference Scope.empty [] (.generic "Twice" [.primitive .number]) v := by
  obtain ⟨hbody, halias, hclosed⟩ := nests.reference_substitute
  refine ⟨?_, ?_, fun v => hclosed _ (by decide) _ _ _ _ v⟩
  · obtain ⟨ws, hws, h⟩ := hbody nest (by decide) [.generic "Twice" [.primitive .bytes]] rfl
      (by decide)
    obtain ⟨w, hw, hv⟩ := h (.generic "Nest" [.sequence (.parameter "T")]) (by decide)
    exact ⟨ws, hws, w, hw, fun v => (hv v).1⟩
  · exact halias ⟨"Twice", ["T"], .nullable (.generic "Same" [.generic "Same" [.parameter "T"]])⟩
      (by decide) [.primitive .number] rfl (by decide)

end Guards

end SchemaGuard
