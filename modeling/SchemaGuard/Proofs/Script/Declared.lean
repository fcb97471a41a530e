import SchemaGuard.Proofs.Schema.JsonForm
import SchemaGuard.Proofs.Script.Written
import SchemaGuard.Script.Declaration

/-!
Definitions told apart by their declarations. The declaration of a definition shows where each name,
key, literal and type in it ends, whatever characters keys and literals hold. So it tells everything
about a definition of a known kind but what is written of types in the same way.
-/

set_option autoImplicit false
set_option relaxedAutoImplicit false

namespace SchemaGuard

open Text (Told EndsName)
open TypeRef (EndsType)

def Field.written (f : Field) : Field := { f with type := f.type.written }

def Variant.written (v : Variant) : Variant := { v with fields := v.fields.map Field.written }

namespace Definition

/-- The definition with all that is written in one way made one. -/
def written : Definition → Definition
  | .struct d => .struct { d with fields := d.fields.map Field.written }
  | .union d => .union { d with variants := d.variants.map Variant.written }
  | .enum d => .enum d
  | .alias d => .alias { d with target := d.target.written }

/-- All names in the definition can be names of types. -/
structure IsUsable (d : Definition) : Prop where
  name : Identifier.isUsable d.name
  params : ∀ p ∈ d.params, Identifier.isUsable p
  references : ∀ t ∈ d.references, t.IsUsable

end Definition

private theorem Schema.WellFormed.isUsable {s : Schema} (w : s.WellFormed) {d : Definition}
    (hd : d ∈ s.types) : d.IsUsable where
  name := w.typeNames d hd
  params := w.paramNames d hd
  references t ht := TypeRef.IsLegal.isUsable w (w.paramNames d hd) (w.references d hd t ht)

namespace Script

private theorem told_params {params params' : List String}
    (hparams : ∀ p ∈ params, Identifier.isPlain p)
    (hparams' : ∀ p ∈ params', Identifier.isPlain p) :
    Told (" =".toList <+: ·) (paramsText params).toList (paramsText params').toList
      (params = params') := by
  have bracketed : ∀ {params}, params ≠ [] → (paramsText params).toList
      = "<".toList ++ (", ".toList.intercalate (params.map String.toList) ++ ">".toList) := by
    intro params hparams
    simp [paramsText, hparams]
  have apart : ∀ {params}, params ≠ [] →
      Told (" =".toList <+: ·) [] (paramsText params).toList False := by
    intro params hparams
    rw [bracketed hparams]
    refine .of_empty fun rest ⟨rest', heq⟩ => ?_
    cases heq
  have item : ∀ x ∈ params, ∀ y ∈ params', Told EndsName x.toList y.toList (id x = id y) :=
    fun x hx y hy => Text.told_name (hparams x hx) (hparams' y hy)
  refine .of_lists (fun params => (paramsText params).toList) id apart apart
    fun hsome hsome' => ?_
  rw [bracketed hsome, bracketed hsome']
  refine .lead _ (.close ((Told.intercalate hsome hsome' item ?_ ?_ ?_).imp ?_))
  · exact fun rest => by simp +decide [EndsName]
  · rintro _ ⟨rest, rfl⟩
    simp +decide [EndsName]
  · rintro rest ⟨rest', heq⟩
    cases heq
  · simp

private theorem told_head (options : Options) {d d' : Definition} (hd : d.IsUsable)
    (hd' : d'.IsUsable) :
    Told (" =".toList <+: ·) (headText options d.name d.params).toList
      (headText options d'.name d'.params).toList (d.name = d'.name ∧ d.params = d'.params) := by
  have follows : ∀ params rest, " =".toList <+: rest →
      EndsName ((paramsText params).toList ++ rest) := by
    rintro params _ ⟨rest, rfl⟩
    cases params with
    | nil => simp +decide [EndsName, paramsText]
    | cons p params => simp +decide [EndsName, paramsText]
  have hname := Text.told_name (Identifier.isPlain_of_isUsable hd.name)
    (Identifier.isPlain_of_isUsable hd'.name)
  have hparams := told_params (fun p hp => Identifier.isPlain_of_isUsable (hd.params p hp))
    fun p hp => Identifier.isPlain_of_isUsable (hd'.params p hp)
  simp only [headText, String.toList_append, List.append_assoc]
  exact .lead _ (.lead _ (hname.append hparams (follows _) (follows _)))

private def requiredMark (required : Bool) : String := if required then "" else "?"

private theorem told_required (required required' : Bool) :
    Told (fun _ => True) (requiredMark required ++ ": ").toList
      (requiredMark required' ++ ": ").toList (required = required') := by
  have apart : Told (fun _ => True) (requiredMark true ++ ": ").toList
      (requiredMark false ++ ": ").toList False := .of_heads rfl rfl (by decide : ':' ≠ '?')
  cases required <;> cases required'
  · exact (Told.refl _ _).imp fun _ => rfl
  · exact apart.symm.imp False.elim
  · exact apart.imp False.elim
  · exact (Told.refl _ _).imp fun _ => rfl

private theorem told_field {f g : Field} (hf : f.type.IsUsable) (hg : g.type.IsUsable) :
    Told EndsType (fieldText f).toList (fieldText g).toList (f.written = g.written) := by
  have parts : ∀ f : Field, (fieldText f).toList = (key f.name).toList
      ++ ((requiredMark f.required ++ ": ").toList ++ f.type.spelling.toList) := by
    simp [fieldText, requiredMark]
  have follows : ∀ (required : Bool) (t rest : List Char),
      EndsName ((requiredMark required ++ ": ").toList ++ t ++ rest) := by
    rintro (_ | _) t rest <;> simp +decide [EndsName, requiredMark]
  have htype := (told_required f.required g.required).append (TypeRef.told_spelling hf hg)
    (fun _ _ => trivial) fun _ _ => trivial
  have hfield := (Text.told_key f.name g.name).append htype (fun _ _ => follows _ _ _)
    fun _ _ => follows _ _ _
  rw [parts, parts]
  refine hfield.imp ?_
  rintro ⟨hname, hrequired, hwritten⟩
  rw [Field.written, Field.written, hname, hrequired, hwritten]

section

variable {fs gs : List Field} (hfs : ∀ f ∈ fs, f.type.IsUsable) (hgs : ∀ g ∈ gs, g.type.IsUsable)

include hfs hgs

private theorem told_object (ends : List Char → Prop) :
    Told ends (objectText fs).toList (objectText gs).toList
      (fs.map Field.written = gs.map Field.written) := by
  have listed : ∀ {fs}, fs ≠ [] → (objectText fs).toList = "\x7b".toList
      ++ (" ".toList ++ ("; ".toList.intercalate (fs.map fun f => (fieldText f).toList)
        ++ " \x7d".toList)) := by
    intro fs hfs
    simp [objectText, hfs, Function.comp_def]
  have apart : ∀ {fs}, fs ≠ [] →
      Told ends ("\x7b".toList ++ "\x7d".toList) (objectText fs).toList False := by
    intro fs hfs
    rw [listed hfs]
    exact .lead _ (.of_heads rfl rfl (by decide : '\x7d' ≠ ' '))
  refine .of_lists (fun fs => (objectText fs).toList) _ apart apart fun hsome hsome' => ?_
  rw [listed hsome, listed hsome']
  refine .lead _ (.lead _ (.close (.intercalate hsome hsome'
    (fun f hf g hg => told_field (hfs f hf) (hgs g hg)) ?_ ?_ ?_)))
  · exact fun rest => .mark (by decide)
  · rintro _ ⟨rest, rfl⟩
    exact .brace
  · rintro rest ⟨rest', heq⟩
    cases heq

end

-- Stated by hand: to derive them from the definition, long texts would have to be compared.
private theorem bodyText_struct (d : Struct) : bodyText (.struct d) =
    if d.fields.isEmpty then " = \x7b\x7d;" else " = \x7b\n" ++ String.join
      (d.fields.map fun f => "  " ++ fieldText f ++ ";\n") ++ "\x7d;" := rfl

private theorem bodyText_union (d : Union) : bodyText (.union d) =
    if d.variants.isEmpty then " = never;"
    else " =" ++ String.join (d.variants.map variantText) ++ ";" := rfl

private theorem bodyText_enum (d : Enum) : bodyText (.enum d) =
    if d.members.isEmpty then " = never;"
    else " = " ++ " | ".intercalate (d.members.map Text.quoted) ++ ";" := rfl

private theorem bodyText_alias (d : Alias) :
    bodyText (.alias d) = " = " ++ d.target.spelling ++ ";" := rfl

private theorem told_struct (ends : List Char → Prop) {d d' : Struct}
    (hd : ∀ f ∈ d.fields, f.type.IsUsable) (hd' : ∀ f ∈ d'.fields, f.type.IsUsable) :
    Told ends (bodyText (.struct d)).toList (bodyText (.struct d')).toList
      (d.fields.map Field.written = d'.fields.map Field.written) := by
  let text (fields : List Field) : List Char := (bodyText (.struct ⟨"", [], fields⟩)).toList
  let line (f : Field) : List Char := "  ".toList ++ ((fieldText f).toList ++ ";\n".toList)
  have listed : ∀ {fields}, fields ≠ [] → text fields
      = " = \x7b".toList ++ ("\n".toList ++ (fields.flatMap line ++ "\x7d;".toList)) := by
    intro fields hfields
    simp [text, bodyText_struct, hfields, line, String.toList_join, List.flatMap_map]
  have apart : ∀ {fields}, fields ≠ [] →
      Told ends (" = \x7b".toList ++ "\x7d;".toList) (text fields) False := by
    intro fields hfields
    rw [listed hfields]
    exact .lead _ (.of_heads rfl rfl (by decide : '\x7d' ≠ '\n'))
  have item : ∀ f ∈ d.fields, ∀ g ∈ d'.fields,
      Told (fun _ => True) (line f) (line g) (f.written = g.written) := by
    refine fun f hf g hg => .lead _ (.close ((told_field (hd f hf) (hd' g hg)).mono ?_))
    rintro _ ⟨rest, rfl⟩
    exact .mark (by decide)
  refine .of_lists text _ apart apart fun hsome hsome' => ?_
  rw [listed hsome, listed hsome']
  refine .lead _ (.lead _ (.close (.flatMap item (fun _ _ => trivial) (fun _ _ => trivial) ?_)))
  rintro f rest ⟨rest', heq⟩
  cases heq

private theorem variantText_eq (v : Variant) : variantText v =
    "\n  | \x7b " ++ tagKey ++ ": " ++ Text.quoted v.tag ++ "; " ++ payloadKey ++ ": "
      ++ objectText v.fields ++ " \x7d" := rfl

private theorem toList_variantText (v : Variant) : (variantText v).toList
    = "\n  | \x7b tag: ".toList ++ ((Text.quoted v.tag).toList
      ++ ("; fields: ".toList ++ ((objectText v.fields).toList ++ " \x7d".toList))) := by
  simp [variantText_eq, tagKey, payloadKey]

private theorem told_variant (ends : List Char → Prop) {v v' : Variant}
    (hv : ∀ f ∈ v.fields, f.type.IsUsable) (hv' : ∀ f ∈ v'.fields, f.type.IsUsable) :
    Told ends (variantText v).toList (variantText v').toList (v.written = v'.written) := by
  have hfields : Told ends ("; fields: ".toList ++ ((objectText v.fields).toList ++ " \x7d".toList))
      ("; fields: ".toList ++ ((objectText v'.fields).toList ++ " \x7d".toList))
      (v.fields.map Field.written = v'.fields.map Field.written) :=
    .lead _ (.close (told_object hv hv' _))
  have hvariant := (Text.told_quoted (fun _ => True) v.tag v'.tag).append hfields
    (fun _ _ => trivial) fun _ _ => trivial
  rw [toList_variantText, toList_variantText]
  exact (hvariant.lead _).imp fun ⟨htag, hwritten⟩ => by
    rw [Variant.written, Variant.written, htag, hwritten]

private theorem told_union (ends : List Char → Prop) {d d' : Union}
    (hd : ∀ v ∈ d.variants, ∀ f ∈ v.fields, f.type.IsUsable)
    (hd' : ∀ v ∈ d'.variants, ∀ f ∈ v.fields, f.type.IsUsable) :
    Told ends (bodyText (.union d)).toList (bodyText (.union d')).toList
      (d.variants.map Variant.written = d'.variants.map Variant.written) := by
  let text (variants : List Variant) : List Char := (bodyText (.union ⟨"", variants⟩)).toList
  have listed : ∀ {variants}, variants ≠ [] → text variants
      = " =".toList ++ (variants.flatMap (fun v => (variantText v).toList) ++ ";".toList) := by
    intro variants hvariants
    simp [text, bodyText_union, hvariants, String.toList_join, List.flatMap_map]
  have apart : ∀ {variants}, variants ≠ [] →
      Told ends (" =".toList ++ " never;".toList) (text variants) False := by
    intro variants hvariants
    rw [listed hvariants]
    obtain ⟨v, variants, rfl⟩ := List.exists_cons_of_ne_nil hvariants
    rw [List.flatMap_cons, toList_variantText]
    exact .lead _ (.of_heads rfl rfl (by decide : ' ' ≠ '\n'))
  have item : ∀ v ∈ d.variants, ∀ v' ∈ d'.variants, Told (fun _ => True)
      (variantText v).toList (variantText v').toList (v.written = v'.written) :=
    fun v hv v' hv' => told_variant _ (hd v hv) (hd' v' hv')
  refine .of_lists text _ apart apart fun hsome hsome' => ?_
  rw [listed hsome, listed hsome']
  refine .lead _ (.close (.flatMap item (fun _ _ => trivial) (fun _ _ => trivial) ?_))
  rintro v rest ⟨rest', heq⟩
  rw [toList_variantText] at heq
  cases heq

private theorem told_enum (ends : List Char → Prop) (d d' : Enum) :
    Told ends (bodyText (.enum d)).toList (bodyText (.enum d')).toList
      (d.members = d'.members) := by
  let text (members : List String) : List Char := (bodyText (.enum ⟨"", members⟩)).toList
  let literals (members : List String) : List Char :=
    " | ".toList.intercalate (members.map fun m => (Text.quoted m).toList)
  have listed : ∀ {members}, members ≠ [] →
      text members = " = ".toList ++ (literals members ++ ";".toList) := by
    intro members hmembers
    simp [text, bodyText_enum, hmembers, literals, Function.comp_def]
  have apart : ∀ {members}, members ≠ [] →
      Told ends (" = ".toList ++ "never;".toList) (text members) False := by
    intro members hmembers
    obtain ⟨m, members, rfl⟩ := List.exists_cons_of_ne_nil hmembers
    have hhead : (literals (m :: members)).head? = some '"' := by
      cases members <;> simp [literals, List.intercalate, Text.toList_quoted]
    rw [listed hmembers]
    exact .lead _ (.of_heads rfl (by rw [List.head?_append, hhead]; rfl) (by decide : 'n' ≠ '"'))
  have item : ∀ m ∈ d.members, ∀ m' ∈ d'.members,
      Told (fun _ => True) (Text.quoted m).toList (Text.quoted m').toList (id m = id m') :=
    fun m _ m' _ => Text.told_quoted _ m m'
  refine .of_lists text id apart apart fun hsome hsome' => ?_
  rw [listed hsome, listed hsome']
  refine .lead _ (.close ((Told.intercalate hsome hsome' item (fun _ => trivial)
    (fun _ _ => trivial) ?_).imp ?_))
  · rintro rest ⟨rest', heq⟩
    cases heq
  · simp

private theorem told_alias (ends : List Char → Prop) {d d' : Alias} (hd : d.target.IsUsable)
    (hd' : d'.target.IsUsable) : Told ends (bodyText (.alias d)).toList
      (bodyText (.alias d')).toList (d.target.written = d'.target.written) := by
  have parts : ∀ d : Alias, (bodyText (.alias d)).toList
      = " = ".toList ++ (d.target.spelling.toList ++ ";".toList) := by
    simp [bodyText_alias]
  rw [parts, parts]
  refine .lead _ (.close ((TypeRef.told_spelling hd hd').mono ?_))
  rintro _ ⟨rest, rfl⟩
  exact .mark (by decide)

private theorem told_body (ends : List Char → Prop) {d d' : Definition} (hd : d.IsUsable)
    (hd' : d'.IsUsable) (hkind : d.kind = d'.kind) :
    Told ends (bodyText d).toList (bodyText d').toList
      (d.name = d'.name → d.params = d'.params → d.written = d'.written) := by
  cases d with
  | struct d =>
    cases d' with
    | struct d' =>
      have hbody := told_struct ends (Definition.forall_references_struct.mp hd.references)
        (Definition.forall_references_struct.mp hd'.references)
      exact hbody.imp fun hfields hname hparams => by
        simpa [Definition.written, Definition.name, Definition.params] using
          ⟨hname, hparams, hfields⟩
    | _ => cases hkind
  | union d =>
    cases d' with
    | union d' =>
      have hbody := told_union ends (Definition.forall_references_union.mp hd.references)
        (Definition.forall_references_union.mp hd'.references)
      exact hbody.imp fun hvariants hname _ => by
        simpa [Definition.written, Definition.name] using ⟨hname, hvariants⟩
    | _ => cases hkind
  | enum d =>
    cases d' with
    | enum d' =>
      exact (told_enum ends d d').imp fun hmembers hname _ => by
        cases d
        cases d'
        simpa [Definition.written, Definition.name] using ⟨hname, hmembers⟩
    | _ => cases hkind
  | «alias» d =>
    cases d' with
    | «alias» d' =>
      have hbody := told_alias ends (hd.references d.target (by simp [Definition.references]))
        (hd'.references d'.target (by simp [Definition.references]))
      exact hbody.imp fun htarget hname hparams => by
        simpa [Definition.written, Definition.name, Definition.params] using
          ⟨hname, hparams, htarget⟩
    | _ => cases hkind

private theorem prefix_bodyText (d : Definition) : " =".toList <+: (bodyText d).toList := by
  cases d with
  | struct d =>
    rw [bodyText_struct]
    split <;> simp
  | union d =>
    rw [bodyText_union]
    split <;> simp
  | enum d =>
    rw [bodyText_enum]
    split <;> simp
  | «alias» d => simp [bodyText_alias]

private theorem written_eq_of_declaration {options : Options} {d d' : Definition} (hd : d.IsUsable)
    (hd' : d'.IsUsable) (hkind : d.kind = d'.kind)
    (h : declaration options d = declaration options d') : d.written = d'.written := by
  have follows : ∀ d : Definition, ∀ rest, rest = [] →
      " =".toList <+: (bodyText d).toList ++ rest := by
    rintro d _ rfl
    rw [List.append_nil]
    exact prefix_bodyText d
  have htold := (told_head options hd hd').append (told_body (· = []) hd hd' hkind) (follows d)
    (follows d')
  have htexts := congrArg String.toList h
  rw [declaration, declaration, String.toList_append, String.toList_append] at htexts
  obtain ⟨⟨⟨hname, hparams⟩, hwritten⟩, -⟩ := htold [] [] rfl rfl (by rw [htexts])
  exact hwritten hname hparams

private theorem fieldText_written (f : Field) : fieldText f.written = fieldText f := by
  rw [fieldText, Field.written, TypeRef.spelling_written]
  rfl

private theorem objectText_written (fields : List Field) :
    objectText (fields.map Field.written) = objectText fields := by
  simp [objectText, Function.comp_def, fieldText_written]

private theorem variantText_written (v : Variant) : variantText v.written = variantText v := by
  rw [variantText_eq, variantText_eq, Variant.written, objectText_written]

private theorem declaration_written (options : Options) (d : Definition) :
    declaration options d.written = declaration options d := by
  have hbody : bodyText d.written = bodyText d := by
    cases d with
    | struct d =>
      simp [Definition.written, bodyText_struct, Function.comp_def, fieldText_written]
    | union d =>
      simp [Definition.written, bodyText_union, Function.comp_def, variantText_written]
    | enum d => rfl
    | «alias» d => simp [Definition.written, bodyText_alias, TypeRef.spelling_written]
  have hhead : d.written.name = d.name ∧ d.written.params = d.params := by
    cases d <;> exact ⟨rfl, rfl⟩
  rw [declaration, declaration, hbody, hhead.1, hhead.2]

/-- Types and declarations lose nothing. References whose names can be names of types are spelt in
one way, and definitions of one kind from resolved schemas are declared in one way under the same
options, if and only if they are the same as written. -/
theorem declaration_eq_iff :
    (∀ t u : TypeRef, t.IsUsable → u.IsUsable →
      (t.spelling = u.spelling ↔ t.written = u.written)) ∧
    ∀ (r r' : ResolvedSchema) (options : Options), ∀ d ∈ r.types, ∀ d' ∈ r'.types,
      d.kind = d'.kind →
        (declaration options d = declaration options d' ↔ d.written = d'.written) := by
  refine ⟨fun t u ht hu => TypeRef.spelling_eq_iff ht hu,
    fun r r' options d hd d' hd' hkind => ⟨fun h => ?_, fun h => ?_⟩⟩
  · exact written_eq_of_declaration (r.wellFormed.isUsable hd) (r'.wellFormed.isUsable hd') hkind h
  · rw [← declaration_written, h, declaration_written]

def coordinates : Definition := .union ⟨"Shape",
  [⟨"line", [⟨"x", .primitive .number, true⟩, ⟨"y", .primitive .number, true⟩]⟩]⟩

def coordinateNames : Definition := .union ⟨"Shape",
  [⟨"line", [⟨"x: number; y", .primitive .number, true⟩]⟩]⟩

theorem declaration_eq_iff_coordinates :
    (TypeRef.generic "Box" [.nullable (.primitive .bytes)]).spelling
        = (TypeRef.generic "Box" [.nullable (.sequence (.primitive .number))]).spelling ∧
      declaration {} coordinates ≠ declaration {} coordinateNames := by
  constructor
  · have husable : ∀ t : TypeRef, t.names = ["Box"] → t.IsUsable := by
      rintro t ht _ hname
      obtain rfl := List.mem_singleton.mp (ht ▸ hname)
      decide
    exact (declaration_eq_iff.1 _ _ (husable _ rfl) (husable _ rfl)).mpr rfl
  · intro h
    let r : ResolvedSchema := ⟨⟨[coordinates]⟩, by decide⟩
    let r' : ResolvedSchema := ⟨⟨[coordinateNames]⟩, by decide⟩
    have hwritten := (declaration_eq_iff.2 r r' {} coordinates List.mem_cons_self coordinateNames
      List.mem_cons_self rfl).mp h
    exact absurd hwritten (by decide)

end Script

end SchemaGuard
