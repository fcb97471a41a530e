import SchemaGuard.Proofs.Resolution.Legal

/-!
Arguments are put in the place of parameters all at once. The parameters of the result are those of
the arguments put in, whatever they are named, so one substitution after another is a single one,
with the second made in the arguments of the first.
-/

set_option autoImplicit false
set_option relaxedAutoImplicit false

namespace SchemaGuard.TypeRef

variable {params : List String} {args : List TypeRef} {name : String}

private theorem isSome_argument?_iff :
    (argument? params args name).isSome ↔ ∃ i, i < args.length ∧ params[i]? = some name := by
  constructor
  · intro h
    unfold argument? at h
    split at h
    · next i hi =>
      obtain ⟨hbound, hname, _⟩ := List.idxOf?_eq_some_iff.mp hi
      refine ⟨i, by simpa using h, ?_⟩
      rw [List.getElem?_eq_getElem hbound, hname]
    · cases h
  · rintro ⟨i, hi, hname⟩
    obtain ⟨j, hj⟩ : ∃ j, params.idxOf? name = some j :=
      Option.isSome_iff_exists.mp (List.isSome_idxOf?.mpr (List.mem_of_getElem? hname))
    obtain ⟨_, _, hfirst⟩ := List.idxOf?_eq_some_iff.mp hj
    have hle : j ≤ i := by
      by_contra hlt
      obtain ⟨hbound, heq⟩ := List.getElem?_eq_some_iff.mp hname
      exact hfirst i (by omega) heq
    have hbound : j < args.length := by omega
    simp [argument?, hj, hbound]

private theorem mem_of_argument? {a : TypeRef} (h : argument? params args name = some a) :
    a ∈ args := by
  unfold argument? at h
  split at h
  · exact List.mem_of_getElem? h
  · cases h

private theorem parameter_mem_nodes_substitute {t : TypeRef}
    (h : ∀ p, .parameter p ∈ t.nodes → (argument? params args p).isSome) :
    .parameter name ∈ (t.substitute params args).nodes ↔
      ∃ p a, .parameter p ∈ t.nodes ∧ argument? params args p = some a ∧
        .parameter name ∈ a.nodes := by
  have all : ∀ {ts : List TypeRef},
      (∀ t ∈ ts, (∀ p, .parameter p ∈ t.nodes → (argument? params args p).isSome) →
        (.parameter name ∈ (t.substitute params args).nodes ↔
          ∃ p a, .parameter p ∈ t.nodes ∧ argument? params args p = some a ∧
            .parameter name ∈ a.nodes)) →
      (∀ p, .parameter p ∈ nodesOfAll ts → (argument? params args p).isSome) →
      (.parameter name ∈ nodesOfAll (substituteAll params args ts) ↔
        ∃ p a, .parameter p ∈ nodesOfAll ts ∧ argument? params args p = some a ∧
          .parameter name ∈ a.nodes) := by
    intro ts ih hts
    have each := fun t ht => ih t ht fun p hp => hts p (mem_nodesOfAll.mpr ⟨t, ht, hp⟩)
    simp only [substituteAll_eq_map, mem_nodesOfAll]
    constructor
    · rintro ⟨_, hmem, hname⟩
      obtain ⟨t, ht, rfl⟩ := List.mem_map.mp hmem
      obtain ⟨p, a, hp, ha, hname⟩ := (each t ht).mp hname
      exact ⟨p, a, ⟨t, ht, hp⟩, ha, hname⟩
    · rintro ⟨p, a, ⟨t, ht, hp⟩, ha, hname⟩
      exact ⟨_, List.mem_map_of_mem ht, (each t ht).mpr ⟨p, a, hp, ha, hname⟩⟩
  induction t with
  | primitive p => simp [substitute, nodes]
  | named name => simp [substitute, nodes]
  | generic name inner ih =>
    simpa [substitute, nodes] using all ih fun p hp => h p (List.mem_cons_of_mem _ hp)
  | sequence inner ih =>
    simpa [substitute, nodes] using ih fun p hp => h p (List.mem_cons_of_mem _ hp)
  | parameter p =>
    obtain ⟨a, ha⟩ := Option.isSome_iff_exists.mp (h p (mem_nodes_self _))
    simp [substitute, nodes, ha]
  | map inner ih =>
    simpa [substitute, nodes] using ih fun p hp => h p (List.mem_cons_of_mem _ hp)
  | tuple elements ih =>
    simpa [substitute, nodes] using all ih fun p hp => h p (List.mem_cons_of_mem _ hp)
  | nullable inner ih =>
    simpa [substitute, nodes] using ih fun p hp => h p (List.mem_cons_of_mem _ hp)

private theorem exists_mentionsParameter_of_substitute {t : TypeRef}
    (h : ∀ p, .parameter p ∈ t.nodes → (argument? params args p).isSome)
    (hmentions : (t.substitute params args).mentionsParameter = true) :
    ∃ a ∈ args, a.mentionsParameter = true := by
  obtain ⟨name, hname⟩ := mentionsParameter_iff.mp hmentions
  obtain ⟨_, a, _, ha, hname⟩ := (parameter_mem_nodes_substitute h).mp hname
  exact ⟨a, mem_of_argument? ha, mentionsParameter_iff.mpr ⟨name, hname⟩⟩

def parameters (t : TypeRef) : List String :=
  t.nodes.filterMap fun node =>
    match node with
    | .parameter name => some name
    | _ => none

private theorem mem_parameters {t : TypeRef} : name ∈ t.parameters ↔ .parameter name ∈ t.nodes := by
  rw [parameters, List.mem_filterMap]
  constructor
  · rintro ⟨node, hnode, hname⟩
    split at hname
    · next p => exact Option.some.inj hname ▸ hnode
    · cases hname
  · exact fun h => ⟨_, h, rfl⟩

private theorem exists_substitute_ne {t : TypeRef} (h : t.mentionsParameter = true) :
    ∃ params args, t.substitute params args ≠ t := by
  let numbers : List TypeRef := t.parameters.map fun _ => .primitive .number
  refine ⟨t.parameters, numbers, fun heq => ?_⟩
  have hsome : ∀ p, .parameter p ∈ t.nodes → (argument? t.parameters numbers p).isSome :=
    fun p hp => isSome_argument? (by simp [numbers]) (mem_parameters.mpr hp)
  obtain ⟨a, ha, hmentions⟩ := exists_mentionsParameter_of_substitute hsome (heq.symm ▸ h)
  obtain ⟨_, _, rfl⟩ := List.mem_map.mp ha
  cases hmentions

/-- Where every parameter of a reference is declared at a place that has an argument, substitution
composes: a second one after it is one with the second made in the arguments; and a parameter is
left over only if some argument mentions one. What no substitution changes is what mentions no
parameter. -/
theorem substitute_composes :
    (∀ (t : TypeRef) (params : List String) (args : List TypeRef),
      (∀ name, .parameter name ∈ t.nodes → ∃ i, i < args.length ∧ params[i]? = some name) →
      (∀ params' args', (t.substitute params args).substitute params' args'
        = t.substitute params (args.map (substitute params' args'))) ∧
      ((t.substitute params args).mentionsParameter = true →
        ∃ a ∈ args, a.mentionsParameter = true)) ∧
    ∀ t : TypeRef, t.mentionsParameter = false ↔
      ∀ params args, t.substitute params args = t := by
  refine ⟨fun t params args h => ?_, fun t => ⟨fun h _ _ => substitute_closed h, fun h => ?_⟩⟩
  · have hsome : ∀ name, .parameter name ∈ t.nodes → (argument? params args name).isSome :=
      fun name hname => isSome_argument?_iff.mpr (h name hname)
    exact ⟨fun params' args' => substitute_substitute params' args' hsome,
      exists_mentionsParameter_of_substitute hsome⟩
  · by_contra hmentions
    obtain ⟨params, args, hne⟩ := exists_substitute_ne (Bool.not_eq_false _ ▸ hmentions)
    exact hne (h params args)

def crossed : TypeRef :=
  .tuple [.parameter "A", .generic "Value" [.sequence (.parameter "B")]]

theorem substitute_composes_crossed :
    (∀ name, .parameter name ∈ crossed.nodes →
      ∃ i, i < 2 ∧ (["A", "B"] : List String)[i]? = some name) ∧
    (crossed.substitute ["A", "B"] [.parameter "B", .nullable (.parameter "A")]).substitute
        ["A", "B"] [.primitive .number, .primitive .string]
      = crossed.substitute ["A", "B"] [.primitive .string, .nullable (.primitive .number)] := by
  have hplaces : ∀ name, .parameter name ∈ crossed.nodes →
      ∃ i, i < 2 ∧ (["A", "B"] : List String)[i]? = some name := by
    intro name hname
    have hname : name = "A" ∨ name = "B" := by
      simpa [crossed, nodes, nodesOfAll] using hname
    rcases hname with rfl | rfl
    · exact ⟨0, by decide, rfl⟩
    · exact ⟨1, by decide, rfl⟩
  refine ⟨hplaces, ?_⟩
  exact (substitute_composes.1 crossed ["A", "B"] [.parameter "B", .nullable (.parameter "A")]
    hplaces).1 ["A", "B"] [.primitive .number, .primitive .string]

end SchemaGuard.TypeRef
