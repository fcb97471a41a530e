import SchemaGuard.Artifacts
import SchemaGuard.Proofs.Script.Emitted
import SchemaGuard.Proofs.Script.Lines

/-!
Which instantiations become constants of a module, and in which order. Emission meets the applied
names of a body as they are read, the arguments before what is applied to them, and makes a constant
of each closed one when it meets it first. So the constants are these, without repeats in the order
of their first occurrence, whichever definitions are emitted and however often.
-/

set_option autoImplicit false
set_option relaxedAutoImplicit false

namespace SchemaGuard

namespace TypeRef

mutual
/-- The names applied to arguments in a reference, each behind those inside its arguments. -/
def applications : TypeRef → List TypeRef
  | .primitive _ | .named _ | .parameter _ | .generic _ [] => []
  | .generic name (t :: ts) => applications t ++ allApplications ts ++ [.generic name (t :: ts)]
  | .sequence inner | .map inner | .nullable inner => applications inner
  | .tuple elements => allApplications elements

def allApplications : List TypeRef → List TypeRef
  | [] => []
  | t :: ts => applications t ++ allApplications ts
end

private theorem allApplications_eq_flatMap (ts : List TypeRef) :
    allApplications ts = ts.flatMap applications := by
  induction ts with
  | nil => rfl
  | cons t ts ih => rw [allApplications, ih, List.flatMap_cons]

private theorem applications_generic {name : String} {args : List TypeRef} (h : args ≠ []) :
    (generic name args).applications = args.flatMap applications ++ [.generic name args] := by
  cases args with
  | nil => exact absurd rfl h
  | cons t ts => rw [applications, allApplications_eq_flatMap, List.flatMap_cons]

/-- No parameter is mentioned. -/
def isClosed (t : TypeRef) : Bool := !t.mentionsParameter

/-- What passes from references to their parts holds of the names applied in them. -/
theorem forall_applications {P : TypeRef → Prop}
    (generic : ∀ {name args}, P (.generic name args) → ∀ t ∈ args, P t)
    (sequence : ∀ {t}, P (.sequence t) → P t) (map : ∀ {t}, P (.map t) → P t)
    (tuple : ∀ {ts}, P (.tuple ts) → ∀ t ∈ ts, P t) (nullable : ∀ {t}, P (.nullable t) → P t)
    {u : TypeRef} (hu : P u) : ∀ t ∈ u.applications, P t := by
  induction u with
  | primitive p => simp [applications]
  | named name => simp [applications]
  | generic name args ih =>
    by_cases hargs : args = []
    · simp [hargs, applications]
    · rw [applications_generic hargs]
      refine List.forall_mem_append.mpr ⟨fun t ht => ?_, List.forall_mem_singleton.mpr hu⟩
      obtain ⟨u, hmem, ht⟩ := List.mem_flatMap.mp ht
      exact ih u hmem (generic hu u hmem) t ht
  | sequence inner ih => exact ih (sequence hu)
  | parameter name => simp [applications]
  | map inner ih => exact ih (map hu)
  | tuple elements ih =>
    rw [applications, allApplications_eq_flatMap]
    intro t ht
    obtain ⟨u, hmem, ht⟩ := List.mem_flatMap.mp ht
    exact ih u hmem (tuple hu u hmem) t ht
  | nullable inner ih => exact ih (nullable hu)

private theorem isClosed_of_mem_applications {t u : TypeRef} (ht : t ∈ u.applications)
    (hu : u.isClosed = true) : t.isClosed = true := by
  have all : ∀ {ts : List TypeRef}, (!anyMentionsParameter ts) = true →
      ∀ t ∈ ts, t.isClosed = true := by
    simp [anyMentionsParameter_eq_any, isClosed]
  exact forall_applications (P := fun t => t.isClosed = true) all id id all id hu t ht

private theorem IsLegal.of_mem_applications {s : Schema} {params : List String} {t u : TypeRef}
    (ht : t ∈ u.applications) (hu : u.IsLegal s params) : t.IsLegal s params :=
  forall_applications (P := IsLegal s params) (fun h => h.generic.2) IsLegal.sequence IsLegal.map
    IsLegal.tuple IsLegal.nullable hu t ht

/-- Whatever is applied inside an item of the list is the item itself or stands before it. -/
def IsSettled (ts : List TypeRef) : Prop :=
  ∀ before t after, ts = before ++ t :: after → ∀ u ∈ t.applications, u = t ∨ u ∈ before

private theorem isSettled_nil : IsSettled [] := by
  intro before t after h
  simp at h

private theorem isSettled_concat {ts : List TypeRef} {t : TypeRef} :
    IsSettled (ts ++ [t]) ↔ IsSettled ts ∧ ∀ u ∈ t.applications, u = t ∨ u ∈ ts :=
  Script.forall_split_concat

namespace IsSettled

variable {ts us : List TypeRef}

private theorem append (hts : IsSettled ts) (hus : IsSettled us) : IsSettled (ts ++ us) := by
  induction us using List.reverseRecOn with
  | nil => rwa [List.append_nil]
  | append_singleton us u ih =>
    obtain ⟨hus, hlast⟩ := isSettled_concat.mp hus
    rw [← List.append_assoc]
    refine isSettled_concat.mpr ⟨ih hus, fun v hv => ?_⟩
    exact (hlast v hv).imp_right (List.mem_append_right ts)

private theorem flatMap {α : Type} {f : α → List TypeRef} {xs : List α}
    (h : ∀ x ∈ xs, IsSettled (f x)) :
    IsSettled (xs.flatMap f) := by
  induction xs with
  | nil => exact isSettled_nil
  | cons x xs ih =>
    rw [List.flatMap_cons]
    obtain ⟨hx, hxs⟩ := List.forall_mem_cons.mp h
    exact hx.append (ih hxs)

private theorem filter_isClosed (h : IsSettled ts) : IsSettled (ts.filter isClosed) := by
  induction ts using List.reverseRecOn with
  | nil => exact isSettled_nil
  | append_singleton ts t ih =>
    obtain ⟨hts, hlast⟩ := isSettled_concat.mp h
    rw [List.filter_append, List.filter_singleton]
    cases hclosed : t.isClosed with
    | false => simpa using ih hts
    | true =>
      refine isSettled_concat.mpr ⟨ih hts, fun u hu => (hlast u hu).imp_right fun hmem => ?_⟩
      exact List.mem_filter.mpr ⟨hmem, isClosed_of_mem_applications hu hclosed⟩

end IsSettled

private theorem isSettled_applications (t : TypeRef) : IsSettled t.applications := by
  induction t with
  | primitive p => exact isSettled_nil
  | named name => exact isSettled_nil
  | generic name args ih =>
    by_cases hargs : args = []
    · rw [hargs, applications]
      exact isSettled_nil
    · rw [applications_generic hargs]
      refine isSettled_concat.mpr ⟨.flatMap ih, fun u hu => ?_⟩
      rw [applications_generic hargs, List.mem_append, List.mem_singleton] at hu
      exact hu.symm
  | sequence inner ih => exact ih
  | parameter name => exact isSettled_nil
  | map inner ih => exact ih
  | tuple elements ih =>
    rw [applications, allApplications_eq_flatMap]
    exact .flatMap ih
  | nullable inner ih => exact ih

end TypeRef

/-- The names applied to arguments in the body of a definition, in the order in which they are
read. -/
def Definition.applications (d : Definition) : List TypeRef :=
  d.references.flatMap TypeRef.applications

namespace Script

open TypeRef (applications isClosed IsSettled)

/-- Adds a use site behind those noted before, unless it is among them. -/
def note (sites : List TypeRef) (t : TypeRef) : List TypeRef :=
  if t ∈ sites then sites else sites ++ [t]

private theorem foldl_note (ts : List TypeRef) : ts.foldl note [] = ts.eraseDups := by
  induction ts using List.reverseRecOn with
  | nil => rfl
  | append_singleton ts t ih =>
    rw [List.foldl_append, ih, List.eraseDups_append]
    by_cases h : t ∈ ts <;> simp [note, List.removeAll, List.eraseDups_cons, h]

private theorem nodup_eraseDups (ts : List TypeRef) : ts.eraseDups.Nodup := by
  rw [← foldl_note]
  induction ts using List.reverseRecOn with
  | nil => exact List.nodup_nil
  | append_singleton ts t ih =>
    rw [List.foldl_append, List.foldl_cons, List.foldl_nil, note]
    split
    · exact ih
    · next h => exact List.concat_eq_append ▸ ih.concat h

private theorem isSettled_eraseDups {ts : List TypeRef} (h : IsSettled ts) :
    IsSettled ts.eraseDups := by
  induction ts using List.reverseRecOn with
  | nil => exact h
  | append_singleton ts t ih =>
    obtain ⟨hts, hlast⟩ := TypeRef.isSettled_concat.mp h
    have hmem : ∀ {u}, u ∈ ts.foldl note [] ↔ u ∈ ts := by simp [foldl_note]
    rw [← foldl_note, List.foldl_append, List.foldl_cons, List.foldl_nil, note]
    rw [← foldl_note] at ih
    split
    · exact ih hts
    · exact TypeRef.isSettled_concat.mpr ⟨ih hts, fun u hu => (hlast u hu).imp_right hmem.mpr⟩

def Emission.sites (s : Emission) : List TypeRef := s.constants.map Binding.site

/-- Where no parameters are declared outside factories, the step makes constants of the closed ones
of the references met, and of nothing else. -/
private def Hoists (c : Context) {α : Type} (step : Emit α) (met : List TypeRef) : Prop :=
  ∀ s : Emission, (s.lazies = none → c.scope.params = []) →
    (step s).2.sites = (met.filter isClosed).foldl note s.sites ∧
      (step s).2.lazies.isSome = s.lazies.isSome

namespace Hoists

variable {c : Context} {α β : Type} {step : Emit α} {met : List TypeRef}

private theorem pure {a : α} : Hoists c (Pure.pure a) [] := fun _ _ => ⟨rfl, rfl⟩

private theorem bind {next : α → Emit β} {met' : List TypeRef} (h : Hoists c step met)
    (hnext : ∀ a, Hoists c (next a) met') : Hoists c (step >>= next) (met ++ met') := by
  intro s hs
  obtain ⟨hsites, hlazies⟩ := h s hs
  have hs' : (step s).2.lazies = none → c.scope.params = [] := by
    intro hnone
    rw [hnone, Option.isSome_none] at hlazies
    exact hs (by simpa using hlazies.symm)
  obtain ⟨hsites', hlazies'⟩ := hnext (step s).1 (step s).2 hs'
  rw [List.filter_append, List.foldl_append, ← hsites]
  exact ⟨hsites', hlazies'.trans hlazies⟩

private theorem giving {f : α → Emit β} (h : Hoists c step met) (hf : ∀ a, Hoists c (f a) []) :
    Hoists c (step >>= f) met := by
  have := h.bind hf
  rwa [List.append_nil] at this

end Hoists

section

variable {c : Context}

private theorem hoists_freshVariable : Hoists c freshVariable [] := fun _ _ => ⟨rfl, rfl⟩

private theorem hoists_instantiate {name : String} {args : List TypeRef} {es : List Expr}
    {inst : Instantiation} (hargs : args ≠ [])
    (hinst : c.schema.instantiation? c.scope name args = some inst)
    (hlegal : ∀ t ∈ args, t.IsLegal c.schema c.scope.params) :
    Hoists c (instantiate c.options inst es) [.generic name args] := by
  intro s hs
  have hmet : [TypeRef.generic name args].filter isClosed =
      if TypeRef.anyMentionsParameter args then [] else [.generic name args] := by
    cases h : TypeRef.anyMentionsParameter args <;> simp [isClosed, TypeRef.mentionsParameter, h]
  have hcases := instantiate_cases hinst es hlegal hs
  generalize instantiate c.options inst es s = r at hcases ⊢
  rw [hmet]
  cases hcases with
  | self _ hidentity => simp [Scope.anyMentionsParameter hargs hidentity]
  | constant hclosed hb hsite =>
    have hmem : .generic name args ∈ s.sites := hsite ▸ List.mem_map_of_mem hb
    simp [hclosed, note, hmem]
  | @newConstant b hclosed hnone hb =>
    have hnotMem : .generic name args ∉ s.sites := by
      simpa [Emission.sites] using hnone
    have hsites : (s.withConstant b).sites = s.sites ++ [.generic name args] := by
      simp [hb, Emission.sites, Emission.withConstant, Emission.newBinding]
    simp only [hclosed, Bool.false_eq_true, if_false, List.foldl_cons, List.foldl_nil, note,
      if_neg hnotMem, hsites]
    exact ⟨trivial, rfl⟩
  | lazy hopen hlazies _ _ => simp [hopen]
  | newLazy hopen hlazies _ _ => simp [hopen, Emission.sites, Emission.withLazy, hlazies]

private theorem hoists_onSubject {t : TypeRef} {condition : Expr → Emit Expr} {met : List TypeRef}
    (h : ∀ e, Hoists c (condition e) met) (subject : Option Expr) :
    Hoists c (onSubject t subject condition) met := by
  cases subject with
  | some e => exact h e
  | none => exact hoists_freshVariable.bind fun x => (h (.name x)).giving fun _ => .pure

private theorem hoists_arguments {ts : List TypeRef}
    (h : ∀ t ∈ ts, Hoists c (reference c t none) t.applications) :
    Hoists c (arguments c ts) (ts.flatMap applications) := by
  induction ts with
  | nil => exact .pure
  | cons t ts ih =>
    obtain ⟨ht, hts⟩ := List.forall_mem_cons.mp h
    rw [arguments, List.flatMap_cons]
    exact ht.bind fun _ => (ih hts).giving fun _ => .pure

private theorem hoists_tuple {e : Expr} {ts : List TypeRef}
    (h : ∀ t ∈ ts, ∀ subject, Hoists c (reference c t (some subject)) t.applications)
    (i : Nat) (found : Expr) : Hoists c (tuple c e i found ts) (ts.flatMap applications) := by
  induction ts generalizing i found with
  | nil => exact .pure
  | cons t ts ih =>
    obtain ⟨ht, hts⟩ := List.forall_mem_cons.mp h
    rw [tuple, List.flatMap_cons]
    exact (ht _).bind fun _ => ih hts _ _

private theorem hoists_reference (w : c.schema.WellFormed) (t : TypeRef)
    (legal : t.IsLegal c.schema c.scope.params) (subject : Option Expr) :
    Hoists c (reference c t subject) t.applications := by
  induction t generalizing subject with
  | primitive p => cases subject <;> cases p <;> exact .pure
  | named name => exact .pure
  | generic name args ih =>
    obtain ⟨hnames, hlegal⟩ := legal.generic
    cases args with
    | nil => exact .pure
    | cons t ts =>
      obtain ⟨d, hd⟩ := hnames.generic? w
      obtain ⟨inst, hinst⟩ :
          ∃ inst, c.schema.instantiation? c.scope name (t :: ts) = some inst := by
        rw [Schema.instantiation?, hd]
        exact ⟨_, rfl⟩
      obtain ⟨ht, hts⟩ := List.forall_mem_cons.mp fun u hu => ih u hu (hlegal u hu) none
      have hargs := List.cons_ne_nil t ts
      rw [reference, hinst, TypeRef.applications_generic hargs, List.flatMap_cons,
        List.append_assoc]
      exact ht.bind fun _ => (hoists_arguments hts).bind fun _ =>
        (hoists_instantiate hargs hinst hlegal).giving fun _ => .pure
  | sequence inner ih =>
    rw [reference]
    exact hoists_onSubject (fun _ => hoists_freshVariable.bind fun x =>
      (ih legal.sequence (some (.name x))).giving fun _ => .pure) subject
  | parameter name => exact .pure
  | map inner ih =>
    rw [reference]
    exact hoists_onSubject (fun _ => hoists_freshVariable.bind fun x =>
      (ih legal.map (some (.name x))).giving fun _ => .pure) subject
  | tuple elements ih =>
    rw [reference, applications, TypeRef.allApplications_eq_flatMap]
    exact hoists_onSubject (fun _ => hoists_tuple (fun t ht subject =>
      ih t ht (legal.tuple t ht) (some subject)) 0 _) subject
  | nullable inner ih =>
    rw [reference]
    exact hoists_onSubject (fun e => (ih legal.nullable (some e)).giving fun _ => .pure) subject

private theorem hoists_fieldChecks (w : c.schema.WellFormed) (e : Expr) {fields : List Field}
    (legal : ∀ f ∈ fields, f.type.IsLegal c.schema c.scope.params) :
    Hoists c (fieldChecks c e fields) ((fields.map Field.type).flatMap applications) := by
  induction fields with
  | nil => exact .pure
  | cons f rest ih =>
    obtain ⟨hf, hrest⟩ := List.forall_mem_cons.mp legal
    rw [fieldChecks, List.map_cons, List.flatMap_cons]
    exact (hoists_reference w f.type hf _).bind fun _ => (ih hrest).giving fun _ => .pure

private theorem hoists_caseBodies (w : c.schema.WellFormed) {variants : List Variant}
    (legal : ∀ v ∈ variants, ∀ f ∈ v.fields, f.type.IsLegal c.schema c.scope.params) :
    Hoists c (caseBodies c variants)
      (((variants.map Variant.fields).flatten.map Field.type).flatMap applications) := by
  induction variants with
  | nil => exact .pure
  | cons v rest ih =>
    obtain ⟨hv, hrest⟩ := List.forall_mem_cons.mp legal
    rw [caseBodies, List.map_cons, List.flatten_cons, List.map_append, List.flatMap_append]
    exact ((hoists_fieldChecks w (.name payloadKey) hv).giving fun _ => .pure).bind fun _ =>
      (ih hrest).giving fun _ => .pure

private theorem hoists_definitionBody (w : c.schema.WellFormed) {d : Definition}
    (legal : ∀ t ∈ d.references, t.IsLegal c.schema c.scope.params) :
    Hoists c (definitionBody c d) d.applications := by
  rw [Definition.applications]
  cases d with
  | struct d =>
    rw [show (Definition.struct d).references = d.fields.map Field.type by
      simp [Definition.references, Definition.fieldLists]]
    exact (hoists_fieldChecks w _ (Definition.forall_references_struct.mp legal)).giving
      fun _ => .pure
  | union d =>
    exact (hoists_caseBodies w (Definition.forall_references_union.mp legal)).giving fun _ => .pure
  | enum d => exact .pure
  | «alias» d =>
    have htarget := legal d.target (by simp [Definition.references])
    rw [show (Definition.alias d).references = [d.target] from rfl, List.flatMap_singleton]
    exact (hoists_reference w d.target htarget _).giving fun _ => .pure

end

section

variable {schema : Schema} {options : Options}

private theorem sites_definitionItem (options : Options) (w : schema.WellFormed) {d : Definition}
    (hd : d ∈ schema.types) {s : Emission} (hs : s.lazies = none) :
    (definitionItem schema options d s).2.sites
        = (d.applications.filter isClosed).foldl note s.sites ∧
      (definitionItem schema options d s).2.lazies = none := by
  let c : Context := ⟨schema, options, Scope.of d⟩
  have hbody : Hoists c (definitionBody c d) d.applications :=
    hoists_definitionBody w (w.references d hd)
  cases hgeneric : d.isGeneric with
  | false =>
    have hparams : d.params = [] := by simpa [Definition.isGeneric] using hgeneric
    obtain ⟨hsites, hlazies⟩ := hbody { s with used := 0 } fun _ => hparams
    rw [definitionItem_guard hgeneric]
    exact ⟨hsites, by simpa [hs] using hlazies⟩
  | true =>
    obtain ⟨hsites, _⟩ := hbody { s with used := 0, lazies := some [] } (by simp)
    rw [definitionItem_factory hgeneric]
    exact ⟨hsites, rfl⟩

private theorem sites_foldl_emit (w : schema.WellFormed) {ds : List Definition}
    (hds : ds ⊆ schema.types)
    {e : Emitter} (hschema : e.schema = schema) (hoptions : e.options = options)
    (hs : e.emission.lazies = none) :
    (ds.foldl Emitter.emit e).emission.sites
      = ((ds.flatMap Definition.applications).filter isClosed).foldl note e.emission.sites := by
  induction ds generalizing e with
  | nil => rfl
  | cons d ds ih =>
    obtain ⟨hd, hds⟩ := List.cons_subset.mp hds
    obtain ⟨hsites, hlazies⟩ := sites_definitionItem options w hd hs
    have hemission : (e.emit d).emission = (definitionItem schema options d e.emission).2 := by
      rw [← hschema, ← hoptions]
      rfl
    rw [List.foldl_cons, ih hds (by rw [← hschema]; rfl) (by rw [← hoptions]; rfl)
      (hemission ▸ hlazies), hemission, hsites, ← List.foldl_append, ← List.filter_append,
      ← List.flatMap_cons]

end

private theorem origins_foldl_emit (ds : List Definition) (e : Emitter) :
    (ds.foldl Emitter.emit e).blocks.map ItemBlock.origin
      = e.blocks.map ItemBlock.origin ++ ds.map fun d => .type d.name := by
  induction ds generalizing e with
  | nil => simp
  | cons d ds ih =>
    have hemit : (e.emit d).blocks.map ItemBlock.origin
        = e.blocks.map ItemBlock.origin ++ [.type d.name] := List.map_append
    rw [List.foldl_cons, ih, hemit, List.append_assoc, List.singleton_append, List.map_cons]

private theorem texts_constants (bs : List Binding) :
    Item.texts (bs.map fun b => .constant b.name b.init)
      = "\n".intercalate (bs.map fun b => "const " ++ b.name ++ " = " ++ b.init.text ++ ";") := by
  rw [Item.texts, List.map_map]
  rfl

private theorem Emitter.finish_ofItems (e : Emitter) :
    e.finish.map Block.ofItems = e.blocks.map Block.ofItems ++
      if e.emission.constants.isEmpty then []
      else [⟨.instantiations, "\n".intercalate (e.emission.constants.map fun b =>
        "const " ++ b.name ++ " = " ++ b.init.text ++ ";")⟩] := by
  rw [Emitter.finish]
  split
  · next h => simp [h]
  · next h =>
    have hsome : e.emission.constants.isEmpty = false := by
      simpa using h
    rw [hsome, if_neg Bool.false_ne_true, List.map_append, List.map_singleton, Block.ofItems,
      texts_constants]

/-- Whichever definitions of a schema are emitted, in whichever order and however often, the
constants of the module are those of the closed ones among the names applied in their bodies, each
where it occurs first. No two have one name, and the initial value of each applies a factory to
checkers that read no parameter and only constants before it, among which are those for whatever is
applied inside its arguments. They end the module, a line for each, if there are any. -/
theorem Emitter.hoists_applications (r : ResolvedSchema) (options : Options)
    {ds : List Definition} (hds : ds ⊆ r.types) :
    let e := ds.foldl Emitter.emit (Emitter.start r.schema options)
    let constants := e.emission.constants
    let line := fun b : Binding => "const " ++ b.name ++ " = " ++ b.init.text ++ ";"
    constants.map Binding.site = ((ds.flatMap Definition.applications).filter isClosed).eraseDups ∧
      (constants.map Binding.site).Nodup ∧ (constants.map Binding.name).Nodup ∧
      (∀ before b after, constants = before ++ b :: after →
        IsConstant r.schema options before b ∧
          ∀ t ∈ b.site.applications, t = b.site ∨ t ∈ before.map Binding.site) ∧
      e.blocks.map ItemBlock.origin = .prelude :: ds.map (fun d => .type d.name) ∧
      e.finish.map Block.ofItems = e.blocks.map Block.ofItems ++
        (if constants.isEmpty then []
        else [⟨.instantiations, "\n".intercalate (constants.map line)⟩]) ∧
      (options.validate = .ok () → ∀ b ∈ constants, OneLine (line b)) := by
  intro e constants line
  obtain ⟨_, _, _, hbetween, _⟩ := foldl_emit r.wellFormed hds
    (e := Emitter.start r.schema options) rfl rfl (between_start r.schema options)
  have hvalid : e.emission.Valid ⟨r.schema, options, Scope.empty⟩ _ := hbetween.valid
  have hnames : e.emission.names = constants.map Binding.name := by
    rw [Emission.names, show e.emission.lazies = none from hbetween.lazies, Option.getD_none,
      List.append_nil]
  have hsites : constants.map Binding.site
      = ((ds.flatMap Definition.applications).filter isClosed).eraseDups := by
    rw [← foldl_note]
    exact sites_foldl_emit r.wellFormed hds (e := Emitter.start r.schema options) rfl rfl rfl
  -- Each site stands behind those inside it, also when later repetitions are left out.
  have hsettled : IsSettled (constants.map Binding.site) := by
    rw [hsites]
    refine isSettled_eraseDups (TypeRef.IsSettled.filter_isClosed (.flatMap fun d _ => ?_))
    exact .flatMap fun t _ => TypeRef.isSettled_applications t
  refine ⟨hsites, hsites ▸ nodup_eraseDups _, hnames ▸ hvalid.distinct,
    fun before b after h => ⟨hvalid.constants before b after h, ?_⟩,
    origins_foldl_emit ds _, e.finish_ofItems, fun hoptions b hb => ?_⟩
  · exact hsettled _ _ (after.map Binding.site) (by rw [h, List.map_append, List.map_cons])
  · have hspelled : ∀ b ∈ constants, OneLine b.name := fun b hb =>
      (hvalid.spelled b.name (hnames ▸ List.mem_map_of_mem hb)).oneLine
        (.of_isUsable (Options.isUsable_of_validate hoptions))
    obtain ⟨before, after, hsplit⟩ := List.append_of_mem hb
    have hmem : b.site ∈ (ds.flatMap Definition.applications).filter isClosed :=
      List.mem_eraseDups.mp (hsites ▸ List.mem_map_of_mem hb)
    obtain ⟨d, hd, hmem⟩ := List.mem_flatMap.mp (List.mem_filter.mp hmem).1
    obtain ⟨t, ht, hmem⟩ := List.mem_flatMap.mp hmem
    have legal : t.IsLegal r.schema d.params := r.wellFormed.references d (hds hd) t ht
    refine (hvalid.constants before b after hsplit).oneLine
      ⟨r.wellFormed, ?_, by simp [Scope.empty], fun p hp => ?_, fun b' hb' => hspelled b' ?_⟩
      (hspelled b hb) (legal.of_mem_applications hmem)
    · exact .of_isUsable (Options.isUsable_of_validate hoptions)
    · exact .of_isUsable (r.wellFormed.paramNames d (hds hd) p hp)
    · rw [hsplit]
      exact List.mem_append_left _ (by simpa using hb')

def box : Definition := .struct ⟨"Box", ["T"], [⟨"content", .parameter "T", true⟩]⟩

def shelf : Definition :=
  .alias ⟨"Shelf", [], .sequence (.generic "Box" [.generic "Box" [.primitive .string]])⟩

def shelves : ResolvedSchema := ⟨⟨[box, shelf]⟩, by decide⟩

theorem Emitter.hoists_applications_shelves :
    let e := [shelf, box, shelf].foldl Emitter.emit (Emitter.start shelves.schema {})
    e.emission.constants.map Binding.site =
      [.generic "Box" [.primitive .string], .generic "Box" [.generic "Box" [.primitive .string]]] :=
  (Emitter.hoists_applications shelves {} (by decide)).1.trans (by decide)

end Script

end SchemaGuard
