import SchemaGuard.Options
import SchemaGuard.Proofs.Json.Layout
import SchemaGuard.Schema.JsonForm.Decode
import SchemaGuard.Schema.JsonForm.Encode

/-!
The JSON form of references and definitions, in memory: reading what was written gives back the
same, no number is written, and a member for the parameters is written if there are any.
-/

set_option autoImplicit false
set_option relaxedAutoImplicit false

namespace SchemaGuard

private theorem Json.list?_map {α : Type} {read : Json → Except Cause α} {write : α → Json}
    (h : ∀ a, read (write a) = .ok a) (as : List α) :
    Json.list? read (.array (as.map write)) = .ok as := by
  rw [Json.list?]
  induction as with
  | nil => rfl
  | cons a as ih =>
    rw [List.map_cons, List.mapM_cons, h, ih]
    rfl

private theorem Json.list?_string (texts : List String) :
    Json.list? Json.string? (.array (texts.map .string)) = .ok texts :=
  @Json.list?_map String Json.string? Json.string (fun _ => rfl) texts

mutual
private theorem TypeRef.ofJson_toJson : ∀ t : TypeRef, TypeRef.ofJson t.toJson = .ok t
  | .primitive p => by cases p <;> rfl
  | .named _ => rfl
  | .parameter _ => rfl
  | .sequence inner => by
    show (TypeRef.ofJson inner.toJson >>= fun t => .ok (TypeRef.sequence t)) = _
    rw [ofJson_toJson inner]
    rfl
  | .map inner => by
    show (TypeRef.ofJson inner.toJson >>= fun t => .ok (TypeRef.map t)) = _
    rw [ofJson_toJson inner]
    rfl
  | .nullable inner => by
    show (TypeRef.ofJson inner.toJson >>= fun t => .ok (TypeRef.nullable t)) = _
    rw [ofJson_toJson inner]
    rfl
  | .tuple elements => by
    show (TypeRef.ofJsonList (TypeRef.toJsonList elements) >>= fun ts => .ok (TypeRef.tuple ts)) = _
    rw [ofJsonList_toJsonList elements]
    rfl
  | .generic name args => by
    show (TypeRef.ofJsonList (TypeRef.toJsonList args) >>=
      fun ts => .ok (TypeRef.generic name ts)) = _
    rw [ofJsonList_toJsonList args]
    rfl

private theorem TypeRef.ofJsonList_toJsonList : ∀ ts : List TypeRef,
    TypeRef.ofJsonList (TypeRef.toJsonList ts) = .ok ts
  | [] => rfl
  | t :: ts => by
    rw [toJsonList, ofJsonList, ofJson_toJson t, ofJsonList_toJsonList ts]
    rfl
end

namespace Record

variable {σ α : Type} {r : Record σ α} {k : String} {x : Json} {rest : List (String × Json)}
  {seen : List String} {a b : σ}

private theorem members_cons {out : Except Cause σ} (known : k ∈ r.keys) (fresh : k ∉ seen)
    (step : r.step k x a = .ok b) (later : r.members rest (k :: seen) b = out) :
    r.members ((k, x) :: rest) seen a = out := by
  rw [Record.members, if_pos known, if_neg fresh, step]
  exact later

theorem read_object {ms : List (String × Json)} {whole : α}
    (members : r.members ms [] r.blank = .ok a) (finish : r.finish .missingField a = .ok whole) :
    r.read (.object ms) = .ok whole := by
  rw [Record.read, members]
  exact finish

end Record

private theorem Field.ofJson_toJson (f : Field) : Field.ofJson f.toJson = .ok f := by
  have type : Field.record.step "ty" f.type.toJson ⟨some f.name, none, true⟩ =
      .ok ⟨some f.name, some f.type, true⟩ := by
    simp only [Field.record, TypeRef.ofJson_toJson]
    rfl
  exact Record.read_object (a := ⟨some f.name, some f.type, f.required⟩)
    (Record.members_cons (by decide) (by decide) rfl <|
      Record.members_cons (by decide) (by decide) type <|
      Record.members_cons (by decide) (by decide) rfl rfl) rfl

private theorem Variant.ofJson_toJson (v : Variant) : Variant.ofJson v.toJson = .ok v := by
  have fields : Variant.record.step "fields" (.array (v.fields.map Field.toJson)) ⟨some v.tag, []⟩ =
      .ok ⟨some v.tag, v.fields⟩ := by
    simp only [Variant.record, Json.list?_map Field.ofJson_toJson]
    rfl
  exact Record.read_object (a := ⟨some v.tag, v.fields⟩)
    (Record.members_cons (by decide) (by decide) rfl <|
      Record.members_cons (by decide) (by decide) fields rfl) rfl

namespace DefinitionDraft

theorem step_params (params : List String) (draft : DefinitionDraft) :
    step "params" (.array (params.map .string)) draft =
      .ok { draft with params := params } := by
  show (Json.list? Json.string? _ >>= fun params => .ok { draft with params := params }) = _
  rw [Json.list?_string]
  rfl

private theorem step_fields (fields : List Field) (draft : DefinitionDraft) :
    step "fields" (.array (fields.map Field.toJson)) draft =
      .ok { draft with fields := fields } := by
  show (Json.list? Field.ofJson _ >>= fun fields => .ok { draft with fields := fields }) = _
  rw [Json.list?_map Field.ofJson_toJson]
  rfl

private theorem step_variants (variants : List Variant) (draft : DefinitionDraft) :
    step "variants" (.array (variants.map Variant.toJson)) draft =
      .ok { draft with variants := variants } := by
  show (Json.list? Variant.ofJson _ >>= fun variants => .ok { draft with variants := variants }) = _
  rw [Json.list?_map Variant.ofJson_toJson]
  rfl

theorem step_members (members : List String) (draft : DefinitionDraft) :
    step "members" (.array (members.map .string)) draft =
      .ok { draft with members := members } := by
  show (Json.list? Json.string? _ >>= fun members => .ok { draft with members := members }) = _
  rw [Json.list?_string]
  rfl

private theorem step_target (target : TypeRef) (draft : DefinitionDraft) :
    step "ty" target.toJson draft = .ok { draft with target := some target } := by
  show (TypeRef.ofJson _ >>= fun target => .ok { draft with target := some target }) = _
  rw [TypeRef.ofJson_toJson]
  rfl

end DefinitionDraft

namespace Definition

def kind : Definition → Kind
  | .struct _ => .struct
  | .union _ => .union
  | .enum _ => .enum
  | .alias _ => .alias

/-- The member for the parameters, if there are any. -/
def paramsContent (params : List String) : List (String × Json) :=
  if params.isEmpty then [] else [("params", .array (params.map .string))]

def content : Definition → List (String × Json)
  | .struct s =>
    ("name", .string s.name) :: paramsContent s.params
      ++ [("fields", .array (s.fields.map Field.toJson))]
  | .union u =>
    [("name", .string u.name), ("variants", .array (u.variants.map Variant.toJson))]
  | .enum e => [("name", .string e.name), ("members", .array (e.members.map .string))]
  | .alias a => ("name", .string a.name) :: paramsContent a.params ++ [("ty", a.target.toJson)]

theorem toJson_eq (d : Definition) :
    d.toJson = .object (("kind", .string d.kind.name) :: d.content) := by
  cases d <;> rfl

private theorem members_paramsContent {α : Type} {r : Record DefinitionDraft α} {name : String}
    {params : List String} {rest : List (String × Json)} {out : Except Cause DefinitionDraft}
    (step : r.step = DefinitionDraft.step) (known : "name" ∈ r.keys ∧ "params" ∈ r.keys)
    (later : ∀ seen ⊆ ["params", "name"],
      r.members rest seen { name := some name, params := params } = out) :
    r.members (("name", .string name) :: (paramsContent params ++ rest)) [] {} = out := by
  refine Record.members_cons (b := { name := some name }) known.1 List.not_mem_nil ?_ ?_
  · rw [step]
    rfl
  · cases params with
    | nil => exact later ["name"] (by simp)
    | cons p ps =>
      show r.members (("params", .array ((p :: ps).map .string)) :: rest) ["name"] _ = out
      refine Record.members_cons known.2 (by decide) ?_ (later _ (List.Subset.refl _))
      rw [step]
      exact DefinitionDraft.step_params (p :: ps) _

theorem ofContent_content (d : Definition) :
    Definition.ofContent d.kind (.object d.content) = .ok d := by
  cases d with
  | struct s =>
    have hread : Struct.record.read (.object (Definition.struct s).content) = .ok s := by
      refine Record.read_object
        (a := { name := some s.name, params := s.params, fields := s.fields })
        (members_paramsContent rfl (by decide) fun seen hseen => ?_) rfl
      have fresh : "fields" ∉ seen := fun h => absurd (hseen h) (by decide)
      exact Record.members_cons (by decide) fresh (DefinitionDraft.step_fields ..) rfl
    exact congrArg (fun r => r >>= fun s => .ok (Definition.struct s)) hread
  | union u =>
    have hread : Union.record.read (.object (Definition.union u).content) = .ok u :=
      Record.read_object (a := { name := some u.name, variants := u.variants })
        (Record.members_cons (by decide) (by decide) rfl <|
          Record.members_cons (by decide) (by decide) (DefinitionDraft.step_variants ..) rfl) rfl
    exact congrArg (fun r => r >>= fun u => .ok (Definition.union u)) hread
  | enum e =>
    have hread : Enum.record.read (.object (Definition.enum e).content) = .ok e :=
      Record.read_object (a := { name := some e.name, members := e.members })
        (Record.members_cons (by decide) (by decide) rfl <|
          Record.members_cons (by decide) (by decide) (DefinitionDraft.step_members ..) rfl) rfl
    exact congrArg (fun r => r >>= fun e => .ok (Definition.enum e)) hread
  | «alias» a =>
    have hread : Alias.record.read (.object (Definition.alias a).content) = .ok a := by
      refine Record.read_object
        (a := { name := some a.name, params := a.params, target := some a.target })
        (members_paramsContent rfl (by decide) fun seen hseen => ?_) rfl
      have fresh : "ty" ∉ seen := fun h => absurd (hseen h) (by decide)
      exact Record.members_cons (by decide) fresh (DefinitionDraft.step_target ..) rfl
    exact congrArg (fun r => r >>= fun a => .ok (Definition.alias a)) hread

/-- A definition is written with a member for its parameters if it has any. -/
theorem params_mem_content_iff (d : Definition) :
    "params" ∈ d.content.map Prod.fst ↔ d.isGeneric = true := by
  cases d with
  | struct s =>
    cases hparams : s.params <;> simp [content, paramsContent, isGeneric, params, hparams]
  | union u => simp [content, isGeneric, params]
  | enum e => simp [content, isGeneric, params]
  | «alias» a =>
    cases hparams : a.params <;> simp [content, paramsContent, isGeneric, params, hparams]

end Definition

mutual
theorem TypeRef.numberless_toJson : ∀ t : TypeRef, t.toJson.Numberless
  | .primitive p => by simp [toJson, Primitive.toJson]
  | .named name => by simp [toJson]
  | .parameter name => by simp [toJson]
  | .sequence inner => by simpa [toJson] using numberless_toJson inner
  | .map inner => by simpa [toJson] using numberless_toJson inner
  | .nullable inner => by simpa [toJson] using numberless_toJson inner
  | .tuple elements => by simpa [toJson] using numberless_toJsonList elements
  | .generic name args => by simpa [toJson] using numberless_toJsonList args

private theorem TypeRef.numberless_toJsonList : ∀ ts : List TypeRef,
    ∀ x ∈ TypeRef.toJsonList ts, x.Numberless
  | [] => nofun
  | t :: ts => List.forall_mem_cons.mpr ⟨numberless_toJson t, numberless_toJsonList ts⟩
end

private theorem Field.numberless_toJson (f : Field) : f.toJson.Numberless := by
  simpa [toJson] using f.type.numberless_toJson

private theorem Variant.numberless_toJson (v : Variant) : v.toJson.Numberless := by
  show (Json.object [("tag", .string v.tag),
    ("fields", .array (v.fields.map Field.toJson))]).Numberless
  simpa using fun f _ => f.numberless_toJson

private theorem Definition.numberless_paramsContent (params : List String) :
    ∀ m ∈ paramsContent params, m.2.Numberless := by
  cases params with
  | nil => nofun
  | cons p ps => simp [paramsContent]

theorem Definition.numberless_toJson (d : Definition) : d.toJson.Numberless := by
  rw [toJson_eq, Json.numberless_object_iff, List.forall_mem_cons]
  refine ⟨Json.numberless_string _, ?_⟩
  cases d with
  | struct s =>
    simp only [content, List.cons_append, List.forall_mem_cons, List.forall_mem_append]
    exact ⟨Json.numberless_string _, numberless_paramsContent s.params,
      by simpa using fun f _ => f.numberless_toJson, nofun⟩
  | union u => simpa [content] using fun v _ => v.numberless_toJson
  | enum e => simp [content]
  | «alias» a =>
    simp only [content, List.cons_append, List.forall_mem_cons, List.forall_mem_append]
    exact ⟨Json.numberless_string _, numberless_paramsContent a.params,
      a.target.numberless_toJson, nofun⟩

theorem Schema.numberless_toJson (s : Schema) : s.toJson.Numberless := by
  simpa [toJson] using fun d _ => d.numberless_toJson

theorem Options.numberless_toJson (o : Options) : o.toJson.Numberless := by
  cases htypes : o.typesModule <;> simp [toJson, htypes]

end SchemaGuard
