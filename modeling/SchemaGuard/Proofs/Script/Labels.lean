import SchemaGuard.Artifacts
import SchemaGuard.Proofs.Script.Words

/-!
The labels of definitions in the guards of a schema. The names of fields, the tags and the members
may be any texts. Each is written as a literal, and whatever the guards are indented by, it stands
in their text as it was written.
-/

set_option autoImplicit false
set_option relaxedAutoImplicit false

namespace SchemaGuard

/-- The strings that the values of a definition are known by. -/
def Definition.labels : Definition → List String
  | .struct d => d.fields.map Field.name
  | .union d =>
    payloadKey :: tagKey :: d.variants.flatMap fun v => v.tag :: v.fields.map Field.name
  | .enum d => d.members
  | .alias _ => []

namespace Script

open Text (Carries)

private theorem literals_any (e : Expr) (es : List Expr) :
    (Expr.any e es).literals = e.literals ++ es.flatMap Expr.literals := by
  induction es generalizing e with
  | nil => simp [Expr.any]
  | cons f es ih => simp [Expr.any, ih, Expr.literals]

private theorem literals_isOneOf (x : String) (names : List String) :
    (Expr.isOneOf (.name x) names).literals = names := by
  cases names with
  | nil => rfl
  | cons s rest =>
    have hequals : ∀ s : String, (Expr.equals (.name x) (.string s)).literals = [s] := fun _ => rfl
    simp [Expr.isOneOf, literals_any, hequals, List.flatMap_map]

private theorem allLiterals_append (a b : List Stmt) :
    Stmt.allLiterals (a ++ b) = Stmt.allLiterals a ++ Stmt.allLiterals b := by
  induction a with
  | nil => rfl
  | cons s a ih => simp [Stmt.allLiterals, ih]

section

variable (c : Context)

private theorem sublist_fieldChecks (e : Expr) (fields : List Field) (s : Emission) :
    (fields.map Field.name).Sublist (Stmt.allLiterals (fieldChecks c e fields s).1) := by
  induction fields generalizing s with
  | nil => exact List.nil_sublist _
  | cons f rest ih =>
    let subject := Expr.index e (.string f.name)
    let condition := reference c f.type (some subject) s
    let fails := Expr.not (.parens condition.1)
    let own := Expr.owns e (.string f.name)
    let check := Stmt.rejectIf (if f.required then .either (.not own) fails else .both own fails)
    have hrun : (fieldChecks c e (f :: rest) s).1
        = check :: (fieldChecks c e rest condition.2).1 := rfl
    have hcheck : [f.name].Sublist check.literals := by
      refine List.singleton_sublist.mpr ?_
      cases hrequired : f.required <;>
        simp [check, own, hrequired, Expr.owns, Stmt.literals, Expr.literals, Expr.allLiterals]
    rw [hrun]
    exact hcheck.append (ih condition.2)

private theorem sublist_objectBody (x : String) (fields : List Field) (s : Emission) :
    (fields.map Field.name).Sublist (Stmt.allLiterals (objectBody c x fields s).1) := by
  obtain ⟨closed, hrun⟩ : ∃ closed, (objectBody c x fields s).1 = recordCheck c (.name x) :: closed
      ++ (fieldChecks c (.name x) fields s).1 ++ [.give (.bool true)] := ⟨_, rfl⟩
  rw [hrun, allLiterals_append, allLiterals_append]
  exact ((sublist_fieldChecks c (.name x) fields s).trans (List.sublist_append_right _ _)).trans
    (List.sublist_append_left _ _)

private theorem sublist_caseBodies (variants : List Variant) (s : Emission) :
    (variants.flatMap fun v => v.tag :: v.fields.map Field.name).Sublist
      (Stmt.caseLiterals (caseBodies c variants s).1) := by
  induction variants generalizing s with
  | nil => exact List.nil_sublist _
  | cons v rest ih =>
    let body := objectBody c payloadKey v.fields s
    have hrun : (caseBodies c (v :: rest) s).1 = (v.tag, body.1) :: (caseBodies c rest body.2).1 :=
      rfl
    rw [hrun]
    exact ((sublist_objectBody c payloadKey v.fields s).cons_cons v.tag).append (ih body.2)

private theorem sublist_definitionBody (d : Definition) (s : Emission) :
    d.labels.Sublist (Stmt.allLiterals (definitionBody c d s).1) := by
  cases d with
  | struct d => exact sublist_objectBody c subjectName d.fields s
  | union d =>
    let e := Expr.name subjectName
    let cases := (caseBodies c d.variants s).1
    let payload := [Stmt.bind payloadKey (.index e (.string payloadKey)),
      .switch (.index e (.string tagKey)) cases]
    obtain ⟨closed, hrun⟩ : ∃ closed,
        (definitionBody c (.union d) s).1 = recordCheck c e :: closed ++ payload := ⟨_, rfl⟩
    have hpayload : Stmt.allLiterals payload = payloadKey :: tagKey :: Stmt.caseLiterals cases := by
      simp [payload, e, Stmt.allLiterals, Stmt.literals, Expr.literals]
    have hcases := ((sublist_caseBodies c d.variants s).cons_cons tagKey).cons_cons payloadKey
    rw [hrun, allLiterals_append, hpayload]
    exact hcases.trans (List.sublist_append_right _ _)
  | enum d =>
    have hrun : (definitionBody c (.enum d) s).1
        = [.give (.isOneOf (.name subjectName) d.members)] := rfl
    simp [hrun, Stmt.allLiterals, Stmt.literals, literals_isOneOf, Definition.labels]
  | «alias» d => exact List.nil_sublist _

end

def ItemBlock.Labels (d : Definition) (block : ItemBlock) : Prop :=
  block.origin = .type d.name ∧ d.labels.Sublist block.literals

private theorem labels_definitionItem (schema : Schema) (options : Options) (d : Definition)
    (s : Emission) :
    ItemBlock.Labels d ⟨.type d.name, [(definitionItem schema options d s).1]⟩ := by
  refine ⟨rfl, ?_⟩
  rw [ItemBlock.literals, List.flatMap_singleton]
  cases hgeneric : d.isGeneric with
  | false =>
    rw [definitionItem_guard hgeneric]
    exact sublist_definitionBody _ d _
  | true =>
    rw [definitionItem_factory hgeneric]
    exact sublist_definitionBody _ d _

private theorem labels_foldl_emit (ds : List Definition) (e : Emitter) :
    ∃ blocks, (ds.foldl Emitter.emit e).blocks = e.blocks ++ blocks ∧
      List.Forall₂ ItemBlock.Labels ds blocks := by
  induction ds generalizing e with
  | nil => exact ⟨[], by simp, .nil⟩
  | cons d ds ih =>
    obtain ⟨blocks, hblocks, hlabels⟩ := ih (e.emit d)
    have hemit : (e.emit d).blocks = e.blocks
        ++ [⟨.type d.name, [(definitionItem e.schema e.options d e.emission).1]⟩] := rfl
    refine ⟨_ :: blocks, ?_, .cons (labels_definitionItem e.schema e.options d e.emission) hlabels⟩
    rw [List.foldl_cons, hblocks, hemit, List.append_assoc, List.singleton_append]

private theorem labels_guardBlocks {schema : Schema} (options : Options) {d : Definition}
    (hd : d ∈ schema.types) : ∃ b ∈ guardBlocks schema options, b.Labels d := by
  obtain ⟨blocks, hblocks, hlabels⟩ := labels_foldl_emit schema.types (.start schema options)
  obtain ⟨b, hb, hlabel⟩ := exists_left hlabels hd
  refine ⟨b, ?_, hlabel⟩
  have hmem : b ∈ (schema.types.foldl Emitter.emit (.start schema options)).blocks :=
    hblocks ▸ List.mem_append_right _ hb
  rw [guardBlocks, Emitter.finish]
  split
  · exact hmem
  · exact List.mem_append_left _ hmem

private theorem carries_guardBlocks (r : ResolvedSchema) (options : Options) {b : ItemBlock}
    (hb : b ∈ guardBlocks r.schema options) :
    Carries (fun c => c = '"' → '"' ∈ options.guardPrefix.toList) b.literals
      (Block.ofItems b).text.toList := by
  have hP : ∀ c, c ≠ '"' → c = '"' → '"' ∈ options.guardPrefix.toList := fun _ hne heq =>
    absurd heq hne
  refine Item.carries_texts hP fun item hitem => ?_
  refine words_guardModule (fun c hc _ => hP c hc) r.wellFormed (fun c hc heq => heq ▸ hc) item ?_
  exact List.mem_flatMap.mpr ⟨b, hb, hitem⟩

/-- The literal of a text has no character below U+0020, its first and its last character are its
only quotes that are not escaped, and it is read as the text, so different texts have different
literals. Indentation of a text without carriage returns that ends in a line feed puts blanks in
front of its lines that are not empty, and does nothing else. Each definition of a resolved schema
has a block of guards in which its labels are literals in the order of the definition, and in the
text of each block its literals stand as they are, with no quotes around them but those of the guard
prefix. -/
theorem literals_survive :
    (∀ s, (∀ c ∈ (Text.quoted s).toList, 0x20 ≤ c.toNat) ∧
      Text.openQuotes 0 (Text.quoted s).toList = [0, (Text.quoted s).length - 1] ∧
      Json.ofText (Text.quoted s) = .ok (.string s)) ∧
    Function.Injective Text.quoted ∧
    (∀ levels text, '\r' ∉ text.toList → text.toList.getLast? = some '\n' →
      (Text.indent levels text).toList
        = Text.padLines (List.replicate (2 * levels) ' ') true text.toList) ∧
    ∀ (r : ResolvedSchema) (options : Options),
      (∀ d ∈ r.types, ∃ b ∈ guardBlocks r.schema options,
        b.origin = .type d.name ∧ d.labels.Sublist b.literals) ∧
      ∀ b ∈ guardBlocks r.schema options,
        Carries (fun c => c = '"' → '"' ∈ options.guardPrefix.toList) b.literals
          (Block.ofItems b).text.toList := by
  refine ⟨fun s => ⟨Text.printed_quoted s, Text.openQuotes_quoted s, Json.ofText_quoted s⟩,
    Text.quoted_injective, fun levels text => Text.toList_indent levels, fun r options => ?_⟩
  exact ⟨fun d hd => labels_guardBlocks options hd, fun b hb => carries_guardBlocks r options hb⟩

def marks : Definition := .enum ⟨"Mark", ["\"", "\\", "\n"]⟩

theorem literals_survive_marks :
    (Text.indent 1 "a\n\nb\n").toList = "  a\n\n  b\n".toList ∧
      ∃ b ∈ guardBlocks ⟨[marks]⟩ {}, ["\"", "\\", "\n"].Sublist b.literals := by
  obtain ⟨_, _, hindent, hblocks⟩ := literals_survive
  obtain ⟨b, hb, _, hlabels⟩ := (hblocks ⟨⟨[marks]⟩, by decide⟩ {}).1 marks List.mem_cons_self
  exact ⟨(hindent 1 _ (by decide) (by decide)).trans (by decide), b, hb, hlabels⟩

end Script

end SchemaGuard
