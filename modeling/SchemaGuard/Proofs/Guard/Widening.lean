import Mathlib.Logic.Relation
import SchemaGuard.Proofs.Guard.Conformance
import SchemaGuard.Proofs.Schema.Transfer

/-!
Schemas that grow with their users. A schema is widened by variants and members at the end of unions
and enums, and by fields that are no longer required. Each such change leaves a looser definition in
the place of the old one, so values keep their types, and a validator of the widened schema accepts
what the validator of the old one accepts.
-/

set_option autoImplicit false
set_option relaxedAutoImplicit false

namespace SchemaGuard

/-- One field that was required is no longer. -/
inductive Field.Relaxed : List Field → List Field → Prop
  | field {before after : List Field} {name : String} {type : TypeRef} :
    Field.Relaxed (before ++ ⟨name, type, true⟩ :: after) (before ++ ⟨name, type, false⟩ :: after)

/-- One change that widens a definition. -/
inductive Definition.Widened : Definition → Definition → Prop
  | field {name : String} {params : List String} {fields fields' : List Field} :
    Field.Relaxed fields fields' →
    Definition.Widened (.struct ⟨name, params, fields⟩) (.struct ⟨name, params, fields'⟩)
  | payloadField {name tag : String} {before after : List Variant} {fields fields' : List Field} :
    Field.Relaxed fields fields' →
    Definition.Widened (.union ⟨name, before ++ ⟨tag, fields⟩ :: after⟩)
      (.union ⟨name, before ++ ⟨tag, fields'⟩ :: after⟩)
  | variant {name : String} {variants : List Variant} {v : Variant} :
    v.tag ∉ variants.map Variant.tag →
    Definition.Widened (.union ⟨name, variants⟩) (.union ⟨name, variants ++ [v]⟩)
  | member {name member : String} {members : List String} :
    Definition.Widened (.enum ⟨name, members⟩) (.enum ⟨name, members ++ [member]⟩)

/-- One change that widens a schema. -/
inductive Schema.Widened : Schema → Schema → Prop
  | definition {before after : List Definition} {d d' : Definition} : d.Widened d' →
    Schema.Widened ⟨before ++ d :: after⟩ ⟨before ++ d' :: after⟩

private theorem exists_mem_replaced {α : Type} {R : α → α → Prop} (refl : ∀ x, R x x)
    {before after : List α} {x x' : α} (h : R x x') :
    ∀ y ∈ before ++ x :: after, ∃ y' ∈ before ++ x' :: after, R y y' := by
  intro y hy
  rcases List.mem_append.mp hy with hy | hy
  · exact ⟨y, List.mem_append_left _ hy, refl y⟩
  · rcases List.mem_cons.mp hy with rfl | hy
    · exact ⟨x', List.mem_append_right _ List.mem_cons_self, h⟩
    · exact ⟨y, List.mem_append_right _ (List.mem_cons_of_mem _ hy), refl y⟩

private theorem Field.Relaxed.allLoosen {fields fields' : List Field}
    (h : Field.Relaxed fields fields') :
    Field.AllLoosen fields fields' := by
  cases h with
  | @field before after name type =>
    have hloosens : Field.Loosens ⟨name, type, true⟩ ⟨name, type, false⟩ := ⟨rfl, rfl, nofun⟩
    exact ⟨exists_mem_replaced .refl hloosens,
      exists_mem_replaced (R := fun f' f : Field => f.Loosens f') .refl hloosens⟩

private theorem Definition.Widened.loosens {d d' : Definition} (h : d.Widened d') :
    d.Loosens d' := by
  cases h with
  | field h => exact .struct h.allLoosen
  | @payloadField name tag before after fields fields' h =>
    have hloosens : Variant.Loosens ⟨tag, fields⟩ ⟨tag, fields'⟩ := ⟨rfl, h.allLoosen⟩
    exact .union (exists_mem_replaced .refl hloosens)
  | variant => exact .union fun v hv => ⟨v, List.mem_append_left _ hv, .refl v⟩
  | member => exact .enum (List.subset_append_left _ _)

namespace Schema.Widened

variable {s s' : Schema} {shape : ShapePolicy} {t : TypeRef} {v : Json}

private theorem exists_find? (h : s.Widened s') {name : String} {d : Definition}
    (hfind : s.find? name = some d) : ∃ d', s'.find? name = some d' ∧ d.Loosens d' := by
  cases h with
  | @definition before after e e' he =>
    have hname : e'.name = e.name := he.loosens.name_eq
    simp only [find?, List.find?_append, List.find?_cons, hname] at hfind ⊢
    cases hbefore : before.find? fun d => d.name == name with
    | some found =>
      rw [hbefore] at hfind
      exact ⟨found, rfl, Option.some.inj hfind ▸ .refl found⟩
    | none =>
      rw [hbefore, Option.none_or] at hfind
      cases hmatch : e.name == name with
      | true =>
        rw [hmatch] at hfind
        exact ⟨e', rfl, Option.some.inj hfind ▸ he.loosens⟩
      | false =>
        rw [hmatch] at hfind
        exact ⟨d, hfind, .refl d⟩

private theorem exists_generic? (h : s.Widened s') {name : String} {args : List TypeRef}
    {d : Definition} (hd : s.generic? name args = some d) :
    ∃ d', s'.generic? name args = some d' ∧ d.Loosens d' := by
  obtain ⟨hfind, hlength⟩ := generic?_eq_some.mp hd
  obtain ⟨d', hfind', hloosens⟩ := h.exists_find? hfind
  exact ⟨d', generic?_eq_some.mpr ⟨hfind', hloosens.params_eq ▸ hlength⟩, hloosens⟩

private theorem carries (h : s.Widened s') : s.Carries s' fun _ => True where
  sequence _ := trivial
  map _ := trivial
  tuple _ _ _ := trivial
  nullable _ := trivial
  meaning _ hd := by
    obtain ⟨name, args, applied, htarget, happlied, rfl⟩ := meaning?_eq_some.mp hd
    obtain ⟨applied', happlied', hloosens⟩ := h.exists_generic? happlied
    have hmeaning := meaning?_eq_some.mpr ⟨name, args, applied', htarget, happlied', rfl⟩
    exact ⟨⟨_, hmeaning, hloosens.instantiate args⟩, fun _ _ => trivial⟩

private theorem conforms (h : s.Widened s') (hv : Conforms s shape t v) : Conforms s' shape t v :=
  hv.carry h.carries id trivial

private theorem isLegal (h : s.Widened s') {params : List String} (ht : t.IsLegal s params) :
    t.IsLegal s' params := by
  cases h with
  | definition he =>
    refine ht.of_names fun ⟨hscope, d, hd, hname, hlength⟩ => ⟨hscope, ?_⟩
    obtain ⟨d', hd', hloosens⟩ := exists_mem_replaced .refl he.loosens d hd
    exact ⟨d', hd', hloosens.name_eq.trans hname, hloosens.params_eq ▸ hlength⟩

end Schema.Widened

section

variable {s s' : Schema}

private theorem Conforms.of_widened (h : Relation.ReflTransGen Schema.Widened s s')
    {shape : ShapePolicy}
    {t : TypeRef} {v : Json} (hv : Conforms s shape t v) : Conforms s' shape t v := by
  induction h with
  | refl => exact hv
  | tail _ hstep ih => exact hstep.conforms ih

private theorem TypeRef.IsLegal.of_widened (h : Relation.ReflTransGen Schema.Widened s s')
    {params : List String} {t : TypeRef} (ht : t.IsLegal s params) : t.IsLegal s' params := by
  induction h with
  | refl => exact ht
  | tail _ hstep ih => exact hstep.isLegal ih

end

namespace Guards

/-- A schema that another one was widened to, by any number of changes, accepts all uses that the
other accepts, and its validators accept all values that those of the other accept. -/
theorem validatorFor_mono_of_widened {r r' : ResolvedSchema}
    (h : Relation.ReflTransGen Schema.Widened r.schema r'.schema) {t : TypeRef}
    (ht : r.checkUse t = .ok ()) :
    r'.checkUse t = .ok () ∧ ∀ shape, ∃ w w', validatorFor ⟨r, shape⟩ t = .ok w ∧
      validatorFor ⟨r', shape⟩ t = .ok w' ∧ ∀ v, w v = true → w' v = true := by
  have ht' : r'.checkUse t = .ok () := ResolvedSchema.checkUse_eq_ok_iff.mpr
    ((ResolvedSchema.checkUse_eq_ok_iff.mp ht).of_widened h)
  refine ⟨ht', fun shape => ⟨_, _, (validatorFor_eq_ok_iff _).mpr ⟨ht, rfl⟩,
    (validatorFor_eq_ok_iff _).mpr ⟨ht', rfl⟩, fun v hv => ?_⟩⟩
  rw [reference_iff_conforms] at hv ⊢
  exact hv.of_widened h

def drawings : ResolvedSchema where
  schema.types := [
    .struct ⟨"Layer", ["T"], [⟨"item", .parameter "T", true⟩, ⟨"mode", .named "Mode", true⟩]⟩,
    .enum ⟨"Mode", ["fill"]⟩,
    .union ⟨"Shape", [⟨"circle", [⟨"radius", .primitive .number, true⟩]⟩,
      ⟨"group", [⟨"parts", .named "Drawing", true⟩]⟩]⟩,
    .alias ⟨"Drawing", [], .sequence (.generic "Layer" [.named "Shape"])⟩]
  noErrors := by decide

/-- The drawings with one more mode, one more shape, and layers and groups that may lack a field. -/
def widerDrawings : ResolvedSchema where
  schema.types := [
    .struct ⟨"Layer", ["T"], [⟨"item", .parameter "T", true⟩, ⟨"mode", .named "Mode", false⟩]⟩,
    .enum ⟨"Mode", ["fill", "stroke"]⟩,
    .union ⟨"Shape", [⟨"circle", [⟨"radius", .primitive .number, true⟩]⟩,
      ⟨"group", [⟨"parts", .named "Drawing", false⟩]⟩, ⟨"dot", []⟩]⟩,
    .alias ⟨"Drawing", [], .sequence (.generic "Layer" [.named "Shape"])⟩]
  noErrors := by decide

theorem validatorFor_mono_of_widened_drawings :
    Relation.ReflTransGen Schema.Widened drawings.schema widerDrawings.schema ∧
      ∃ w w', validatorFor ⟨drawings, .closed⟩ (.named "Drawing") = .ok w ∧
        validatorFor ⟨widerDrawings, .closed⟩ (.named "Drawing") = .ok w' ∧
        ∀ v, w v = true → w' v = true := by
  have h : Relation.ReflTransGen Schema.Widened drawings.schema widerDrawings.schema := by
    refine .head (@Schema.Widened.definition [] _ _ _ (.field <|
      @Field.Relaxed.field [⟨"item", .parameter "T", true⟩] _ _ _)) ?_
    refine .head (@Schema.Widened.definition [_] _ _ _ (@Definition.Widened.member _ "stroke" _)) ?_
    refine .head (@Schema.Widened.definition [_, _] _ _ _ (@Definition.Widened.payloadField _ _ [_]
      _ _ _ (@Field.Relaxed.field [] _ _ _))) ?_
    exact .single (@Schema.Widened.definition [_, _] _ _ _
      (@Definition.Widened.variant _ _ ⟨"dot", []⟩ (by decide)))
  exact ⟨h, (validatorFor_mono_of_widened h (t := .named "Drawing") (by decide)).2 .closed⟩

end Guards

end SchemaGuard
