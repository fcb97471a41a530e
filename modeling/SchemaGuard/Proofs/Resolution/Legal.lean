import SchemaGuard.Proofs.Resolution.WellFormed
import SchemaGuard.Proofs.Schema.References

/-!
Legal references: every node is a declared parameter, or applied to as many arguments as its type
takes. Legality survives putting legal arguments in the place of the parameters, and adding
definitions to the schema. The references that stand in no definition and pass the check of uses are
those that are legal with nothing declared.
-/

set_option autoImplicit false
set_option relaxedAutoImplicit false

namespace SchemaGuard

namespace TypeRef

theorem mem_nodesOfAll {ts : List TypeRef} {node : TypeRef} :
    node ∈ nodesOfAll ts ↔ ∃ t ∈ ts, node ∈ t.nodes := by
  induction ts with
  | nil => simp [nodesOfAll]
  | cons t ts ih => simp [nodesOfAll, ih]

theorem mem_nodes_self (t : TypeRef) : t ∈ t.nodes := by
  cases t <;> simp [nodes]

private theorem nodes_subset {t u : TypeRef} (h : t ∈ u.nodes) : t.nodes ⊆ u.nodes := by
  have step : ∀ {u : TypeRef} {parts : List TypeRef}, u.nodes = u :: parts →
      (t ∈ parts → t.nodes ⊆ parts) → t ∈ u.nodes → t.nodes ⊆ u.nodes := by
    intro u parts hnodes hparts ht
    rcases List.mem_cons.mp (hnodes ▸ ht) with rfl | ht
    · exact List.Subset.refl _
    · rw [hnodes]
      exact List.subset_cons_of_subset _ (hparts ht)
  have all : ∀ {ts : List TypeRef}, (∀ u ∈ ts, t ∈ u.nodes → t.nodes ⊆ u.nodes) →
      t ∈ nodesOfAll ts → t.nodes ⊆ nodesOfAll ts := by
    intro ts ih ht node hnode
    obtain ⟨u, hu, ht⟩ := mem_nodesOfAll.mp ht
    exact mem_nodesOfAll.mpr ⟨u, hu, ih u hu ht hnode⟩
  induction u with
  | primitive p => exact step rfl (by simp) h
  | named name => exact step rfl (by simp) h
  | generic name args ih => exact step rfl (all ih) h
  | sequence inner ih => exact step rfl ih h
  | parameter name => exact step rfl (by simp) h
  | map inner ih => exact step rfl ih h
  | tuple elements ih => exact step rfl (all ih) h
  | nullable inner ih => exact step rfl ih h

theorem mentionsParameter_iff {t : TypeRef} :
    t.mentionsParameter = true ↔ ∃ name, .parameter name ∈ t.nodes := by
  have all : ∀ {ts : List TypeRef},
      (∀ t ∈ ts, t.mentionsParameter = true ↔ ∃ name, .parameter name ∈ t.nodes) →
      (anyMentionsParameter ts = true ↔ ∃ name, .parameter name ∈ nodesOfAll ts) := by
    intro ts ih
    rw [anyMentionsParameter_eq_any, List.any_eq_true]
    constructor
    · rintro ⟨t, ht, hmentions⟩
      obtain ⟨name, hname⟩ := (ih t ht).mp hmentions
      exact ⟨name, mem_nodesOfAll.mpr ⟨t, ht, hname⟩⟩
    · rintro ⟨name, hname⟩
      obtain ⟨t, ht, hname⟩ := mem_nodesOfAll.mp hname
      exact ⟨t, ht, (ih t ht).mpr ⟨name, hname⟩⟩
  induction t with
  | generic name args ih => simpa [mentionsParameter, nodes] using all ih
  | tuple elements ih => simpa [mentionsParameter, nodes] using all ih
  | _ => simp_all [mentionsParameter, nodes]

def IsLegal (s : Schema) (params : List String) (t : TypeRef) : Prop :=
  ∀ node ∈ t.nodes, s.Legal params node

variable {s : Schema} {params : List String} {inner : TypeRef} {ts : List TypeRef}

theorem IsLegal.parameter {name : String} (h : (parameter name).IsLegal s params) :
    name ∈ params := h (.parameter name) (by simp [nodes])

theorem IsLegal.named {name : String} (h : (named name).IsLegal s params) :
    s.Names params name 0 := h (.named name) (by simp [nodes])

theorem IsLegal.generic {name : String} (h : (generic name ts).IsLegal s params) :
    s.Names params name ts.length ∧ ∀ t ∈ ts, t.IsLegal s params :=
  ⟨h (.generic name ts) (by simp [nodes]), fun t ht node hnode =>
    h node (List.mem_cons_of_mem _ (mem_nodesOfAll.mpr ⟨t, ht, hnode⟩))⟩

theorem IsLegal.sequence (h : (sequence inner).IsLegal s params) : inner.IsLegal s params :=
  fun node hnode => h node (List.mem_cons_of_mem _ hnode)

theorem IsLegal.map (h : (map inner).IsLegal s params) : inner.IsLegal s params :=
  fun node hnode => h node (List.mem_cons_of_mem _ hnode)

theorem IsLegal.tuple (h : (tuple ts).IsLegal s params) : ∀ t ∈ ts, t.IsLegal s params :=
  fun t ht node hnode => h node (List.mem_cons_of_mem _ (mem_nodesOfAll.mpr ⟨t, ht, hnode⟩))

theorem IsLegal.nullable (h : (nullable inner).IsLegal s params) : inner.IsLegal s params :=
  fun node hnode => h node (List.mem_cons_of_mem _ hnode)

theorem isLegal_named_iff {name : String} :
    (named name).IsLegal s params ↔ s.Names params name 0 :=
  ⟨IsLegal.named, fun h => by simpa [IsLegal, nodes, Schema.Legal] using h⟩

theorem isLegal_generic_iff {name : String} : (generic name ts).IsLegal s params ↔
    s.Names params name ts.length ∧ ∀ t ∈ ts, t.IsLegal s params := by
  refine ⟨IsLegal.generic, fun ⟨hname, hargs⟩ node hnode => ?_⟩
  rcases List.mem_cons.mp hnode with rfl | hnode
  · exact hname
  · obtain ⟨t, ht, hnode⟩ := mem_nodesOfAll.mp hnode
    exact hargs t ht node hnode

private theorem isLegal_tuple_iff :
    (tuple ts).IsLegal s params ↔ ∀ t ∈ ts, t.IsLegal s params := by
  refine ⟨IsLegal.tuple, fun h node hnode => ?_⟩
  rcases List.mem_cons.mp hnode with rfl | hnode
  · trivial
  · obtain ⟨t, ht, hnode⟩ := mem_nodesOfAll.mp hnode
    exact h t ht node hnode

private theorem IsLegal.wrap {outer : TypeRef} (hnodes : outer.nodes = outer :: inner.nodes)
    (houter : s.Legal params outer) (h : inner.IsLegal s params) : outer.IsLegal s params := by
  intro node hnode
  rw [hnodes] at hnode
  rcases List.mem_cons.mp hnode with rfl | hnode
  · exact houter
  · exact h node hnode

theorem IsLegal.mentionsParameter {t : TypeRef} (h : t.IsLegal s []) :
    t.mentionsParameter = false := by
  have all : ∀ {ts : List TypeRef}, (∀ t ∈ ts, t.mentionsParameter = false) →
      anyMentionsParameter ts = false := fun hts => by
    simpa [anyMentionsParameter_eq_any] using hts
  induction t with
  | primitive p => rfl
  | named name => rfl
  | generic name args ih => exact all fun t ht => ih t ht (h.generic.2 t ht)
  | sequence inner ih => exact ih h.sequence
  | parameter name => exact absurd h.parameter (by simp)
  | map inner ih => exact ih h.map
  | tuple elements ih => exact all fun t ht => ih t ht (h.tuple t ht)
  | nullable inner ih => exact ih h.nullable

theorem IsLegal.target {t : TypeRef} (h : t.IsLegal s params) {name : String}
    {args : List TypeRef} (htarget : t.target? = some (name, args)) :
    s.Names params name args.length ∧ ∀ a ∈ args, a.IsLegal s params := by
  cases t with
  | named n =>
    obtain ⟨rfl, rfl⟩ : n = name ∧ [] = args := by simpa [target?] using htarget
    exact ⟨h.named, by simp⟩
  | generic n ts =>
    obtain ⟨rfl, rfl⟩ : n = name ∧ ts = args := by simpa [target?] using htarget
    exact h.generic
  | _ => cases htarget

theorem IsLegal.of_names {s' : Schema}
    (names : ∀ {name found}, s.Names params name found → s'.Names params name found) {t : TypeRef}
    (h : t.IsLegal s params) : t.IsLegal s' params := by
  intro node hnode
  have hlegal := h node hnode
  cases node with
  | named name => exact names hlegal
  | generic name args => exact names hlegal
  | parameter name => exact hlegal
  | _ => trivial

theorem IsLegal.of_subset {s' : Schema} (hsubset : s.types ⊆ s'.types) {t : TypeRef}
    (h : t.IsLegal s params) : t.IsLegal s' params :=
  h.of_names fun ⟨hscope, d, hd, hname, hlength⟩ => ⟨hscope, d, hsubset hd, hname, hlength⟩

theorem idxOf?_getElem (distinct : params.Nodup) {i : Nat} (h : i < params.length) :
    params.idxOf? params[i] = some i := by
  refine List.idxOf?_eq_some_iff.mpr ⟨h, rfl, fun j hj heq => ?_⟩
  have := (List.getElem_inj distinct).mp heq
  omega

private theorem argument?_map (params : List String) (args : List TypeRef) (f : TypeRef → TypeRef)
    (name : String) : argument? params (args.map f) name = (argument? params args name).map f := by
  unfold argument?
  split <;> simp

theorem isSome_argument? {args : List TypeRef} (hlength : params.length = args.length)
    {name : String} (h : name ∈ params) : (argument? params args name).isSome := by
  obtain ⟨i, hi⟩ := Option.isSome_iff_exists.mp (List.isSome_idxOf?.mpr h)
  have hbound : i < args.length := hlength ▸ (List.idxOf?_eq_some_iff.mp hi).1
  rw [argument?, hi]
  simp [hbound]

theorem substitute_substitute {args : List TypeRef} (params' : List String) (args' : List TypeRef)
    {t : TypeRef} (h : ∀ name, .parameter name ∈ t.nodes → (argument? params args name).isSome) :
    (t.substitute params args).substitute params' args'
      = t.substitute params (args.map (substitute params' args')) := by
  have all : ∀ {ts : List TypeRef},
      (∀ t ∈ ts, (∀ name, .parameter name ∈ t.nodes → (argument? params args name).isSome) →
        (t.substitute params args).substitute params' args'
          = t.substitute params (args.map (substitute params' args'))) →
      (∀ name, .parameter name ∈ nodesOfAll ts → (argument? params args name).isSome) →
      substituteAll params' args' (substituteAll params args ts)
        = substituteAll params (args.map (substitute params' args')) ts := by
    intro ts ih hts
    simp only [substituteAll_eq_map, List.map_map]
    refine List.map_congr_left fun t ht => ih t ht fun name hname => ?_
    exact hts name (mem_nodesOfAll.mpr ⟨t, ht, hname⟩)
  induction t with
  | primitive p => rfl
  | named name => rfl
  | generic name inner ih =>
    simp only [substitute]
    rw [all ih fun name hname => h name (List.mem_cons_of_mem _ hname)]
  | sequence inner ih =>
    simp only [substitute]
    rw [ih fun name hname => h name (List.mem_cons_of_mem _ hname)]
  | parameter name =>
    obtain ⟨a, ha⟩ := Option.isSome_iff_exists.mp (h name (mem_nodes_self _))
    simp only [substitute, argument?_map, ha, Option.getD_some, Option.map_some]
  | map inner ih =>
    simp only [substitute]
    rw [ih fun name hname => h name (List.mem_cons_of_mem _ hname)]
  | tuple elements ih =>
    simp only [substitute]
    rw [all ih fun name hname => h name (List.mem_cons_of_mem _ hname)]
  | nullable inner ih =>
    simp only [substitute]
    rw [ih fun name hname => h name (List.mem_cons_of_mem _ hname)]

theorem IsLegal.substitute {args : List TypeRef} (hlength : params.length = args.length)
    (hargs : ∀ a ∈ args, a.IsLegal s []) {t : TypeRef} (h : t.IsLegal s params) :
    (t.substitute params args).IsLegal s [] := by
  have unscoped : ∀ {name found}, s.Names params name found → s.Names [] name found :=
    fun hname => ⟨List.not_mem_nil, hname.2⟩
  induction t with
  | primitive p => simp [IsLegal, TypeRef.substitute, nodes, Schema.Legal]
  | named name => exact isLegal_named_iff.mpr (unscoped h.named)
  | generic name inner ih =>
    obtain ⟨hname, hinner⟩ := h.generic
    rw [TypeRef.substitute, substituteAll_eq_map, isLegal_generic_iff, List.length_map]
    refine ⟨unscoped hname, List.forall_mem_map.mpr fun t ht => ih t ht (hinner t ht)⟩
  | sequence inner ih => exact .wrap rfl trivial (ih h.sequence)
  | parameter name =>
    obtain ⟨i, hi⟩ := Option.isSome_iff_exists.mp (List.isSome_idxOf?.mpr h.parameter)
    have hbound : i < args.length := hlength ▸ (List.idxOf?_eq_some_iff.mp hi).1
    rw [TypeRef.substitute, argument?, hi]
    simp only [List.getElem?_eq_getElem hbound, Option.getD_some]
    exact hargs _ (List.getElem_mem hbound)
  | map inner ih => exact .wrap rfl trivial (ih h.map)
  | tuple elements ih =>
    rw [TypeRef.substitute, substituteAll_eq_map, isLegal_tuple_iff]
    exact List.forall_mem_map.mpr fun t ht => ih t ht (h.tuple t ht)
  | nullable inner ih => exact .wrap rfl trivial (ih h.nullable)

theorem IsLegal.closed {t : TypeRef} (h : t.IsLegal s params) (ht : t.mentionsParameter = false) :
    t.IsLegal s [] := by
  let args := params.map fun _ => primitive .number
  have hargs : ∀ a ∈ args, a.IsLegal s [] := by simp [args, IsLegal, nodes, Schema.Legal]
  have hlegal := h.substitute (by simp [args]) hargs
  rwa [substitute_closed ht] at hlegal

end TypeRef

/-- A use that is accepted is a reference that is legal with nothing declared. -/
theorem ResolvedSchema.checkUse_eq_ok_iff {r : ResolvedSchema} {t : TypeRef} :
    r.checkUse t = .ok () ↔ t.IsLegal r.schema [] := by
  have hnil : r.schema.referenceErrors Site.use [] t = [] ↔ t.IsLegal r.schema [] :=
    Schema.referenceErrors_eq_nil_iff r.wellFormed.types_nodup
  rw [← hnil, checkUse]
  split <;> simp_all

namespace Schema

variable {s : Schema} {params : List String} {name : String}

theorem Names.generic? (w : s.WellFormed) {args : List TypeRef}
    (h : s.Names params name args.length) : ∃ d, s.generic? name args = some d := by
  obtain ⟨_, d, hd, hname, hlength⟩ := h
  exact ⟨d, generic?_eq_some.mpr
    ⟨(find?_eq_some_iff w.types_nodup).mpr ⟨hd, hname⟩, hlength⟩⟩

theorem Names.monomorphic? (w : s.WellFormed) (h : s.Names params name 0) :
    ∃ d, s.monomorphic? name = some d :=
  generic?_nil ▸ Names.generic? w (show s.Names params name [].length from h)

end Schema

namespace Definition

/-- All references in the body of a definition, those inside others included. -/
def nodes (d : Definition) : List TypeRef := d.references.flatMap TypeRef.nodes

variable {P : TypeRef → Prop}

theorem forall_references_struct {d : Struct} :
    (∀ t ∈ (Definition.struct d).references, P t) ↔ ∀ f ∈ d.fields, P f.type := by
  simp [references, fieldLists]

theorem forall_references_union {d : Union} :
    (∀ t ∈ (Definition.union d).references, P t) ↔ ∀ v ∈ d.variants, ∀ f ∈ v.fields, P f.type := by
  constructor
  · intro h v hv f hf
    refine h f.type (List.mem_map_of_mem (List.mem_flatten.mpr ⟨v.fields, ?_, hf⟩))
    exact List.mem_map_of_mem hv
  · intro h t ht
    obtain ⟨f, hf, rfl⟩ := List.mem_map.mp ht
    obtain ⟨fields, hfields, hf⟩ := List.mem_flatten.mp hf
    obtain ⟨v, hv, rfl⟩ := List.mem_map.mp hfields
    exact h v hv f hf

end Definition

theorem Schema.WellFormed.isLegal {s : Schema} (w : s.WellFormed) {d : Definition}
    (hd : d ∈ s.types) {t : TypeRef} (ht : t ∈ d.nodes) : t.IsLegal s d.params := by
  obtain ⟨u, hu, ht⟩ := List.mem_flatMap.mp ht
  exact fun node hnode => w.references d hd u hu node (TypeRef.nodes_subset ht hnode)

end SchemaGuard
