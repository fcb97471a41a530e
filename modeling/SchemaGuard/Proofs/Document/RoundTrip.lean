import SchemaGuard.Document.Reader
import SchemaGuard.Proofs.Json.Tree
import SchemaGuard.Proofs.Schema.JsonForm

/-!
Documents read back. The tree of a written schema, reference or choice of options holds its JSON
form, and reading the tree gives the schema, reference or options back, as long as the form nests no
deeper than a document may.
-/

set_option autoImplicit false
set_option relaxedAutoImplicit false

namespace SchemaGuard

private theorem Shape.ofName_name (s : Shape) : Shape.ofName s.name = .ok s := by
  cases s <;> rfl

private theorem Primitive.ofName_name (p : Primitive) : Primitive.ofName p.name = .ok p := by
  cases p <;> rfl

private theorem Node.unitVariant_holds {α : Type} {ofName : String → Except Cause α} {name : String}
    {a : α}
    {room : Nat} {node : Node} (h : node.Holds (.string name)) (hname : ofName name = .ok a) :
    node.unitVariant ofName room = .ok a := by
  obtain ⟨start, stop, rfl⟩ := h.scalar_inv (.string name)
  rw [unitVariant, choice]
  simp only [hname]
  rfl

private theorem Node.bool?_holds {b : Bool} {node : Node} (h : node.Holds (.bool b)) :
    node.bool? = .ok b := by
  obtain ⟨start, stop, rfl⟩ := h.scalar_inv (.bool b)
  rfl

private theorem Node.string?_holds {text : String} {node : Node} (h : node.Holds (.string text)) :
    node.string? = .ok text := by
  obtain ⟨start, stop, rfl⟩ := h.scalar_inv (.string text)
  rfl

private theorem TypeRef.ofNode_keyed (shape : Shape) {x : Json} {node : Node} {room : Nat}
    {giveUp : Option Nat} {t : TypeRef} (h : node.Holds (.object [(shape.name, x)]))
    (hdepth : (Json.object [(shape.name, x)]).depth ≤ room)
    (hread : ∀ inside content, Node.Holds content x → x.depth ≤ inside →
      ∀ key next resume stop, TypeRef.ofMembers inside giveUp.isSome shape
        (.member key content next resume (.done (.closed stop))) = .ok t) :
    TypeRef.ofNode room giveUp node = .ok t := by
  obtain ⟨start, members, rfl, hmembers⟩ := h.object_inv
  simp only [Json.depth, Json.depthOfMembers, Nat.max_zero] at hdepth
  obtain ⟨inside, rfl⟩ : ∃ n, room = n + 1 := ⟨room - 1, by omega⟩
  cases hmembers with
  | member hx hrest =>
    cases hrest with
    | done =>
      rw [TypeRef.ofNode, Node.choice, if_neg (Nat.succ_ne_zero inside)]
      simp only [Shape.ofName_name]
      show TypeRef.ofMembers inside giveUp.isSome shape _ = _
      exact hread inside _ hx (Nat.le_of_succ_le_succ hdepth) _ _ _ _

private theorem TypeRef.genericOfNode_hold {name : String} {args : List TypeRef} {xs : List Json}
    {members : Members} {room : Nat}
    (h : members.Hold [("name", .string name), ("args", .array xs)])
    (hargs : ∀ items : Items, items.Hold xs → TypeRef.ofItems room 0 items = .ok args) :
    TypeRef.genericOfNode (room + 1) members none none = .ok (.generic name args) := by
  cases h with
  | member hname hrest =>
    cases hrest with
    | member hlist hrest =>
      cases hrest with
      | done =>
        obtain ⟨start, items, rfl, hitems⟩ := hlist.array_inv
        have hread := hargs items hitems
        simp only [TypeRef.genericOfNode, ↓reduceIte, Option.isSome_none, Bool.false_eq_true,
          Node.string?_holds hname, String.reduceEq, if_neg (Nat.succ_ne_zero room),
          Nat.add_sub_cancel, hread]
        rfl

mutual
private theorem TypeRef.ofNode_holds :
    ∀ (t : TypeRef) {room : Nat} {giveUp : Option Nat} {node : Node},
    node.Holds t.toJson → t.toJson.depth ≤ room → TypeRef.ofNode room giveUp node = .ok t
  | .primitive p, _, _, _, h, hdepth =>
    ofNode_keyed .primitive h hdepth fun _ _ hcontent _ => by
      intros
      simp only [TypeRef.ofMembers, Node.unitVariant_holds hcontent p.ofName_name]
      rfl
  | .named name, _, _, _, h, hdepth =>
    ofNode_keyed .named h hdepth fun _ _ hcontent _ => by
      intros
      simp only [TypeRef.ofMembers, Node.string?_holds hcontent]
      rfl
  | .parameter name, _, _, _, h, hdepth =>
    ofNode_keyed .parameter h hdepth fun _ _ hcontent _ => by
      intros
      simp only [TypeRef.ofMembers, Node.string?_holds hcontent]
      rfl
  | .sequence inner, _, _, _, h, hdepth =>
    ofNode_keyed .sequence h hdepth fun _ _ hcontent hinside => by
      intros
      simp only [TypeRef.ofMembers, ofNode_holds inner hcontent hinside]
      rfl
  | .map inner, _, _, _, h, hdepth =>
    ofNode_keyed .map h hdepth fun _ _ hcontent hinside => by
      intros
      simp only [TypeRef.ofMembers, ofNode_holds inner hcontent hinside]
      rfl
  | .nullable inner, _, _, _, h, hdepth =>
    ofNode_keyed .nullable h hdepth fun _ _ hcontent hinside => by
      intros
      simp only [TypeRef.ofMembers, ofNode_holds inner hcontent hinside]
      rfl
  | .tuple elements, _, _, _, h, hdepth =>
    ofNode_keyed .tuple h hdepth fun n _ hcontent hinside => by
      intros
      obtain ⟨start, items, rfl, hitems⟩ := hcontent.array_inv
      rw [Json.depth] at hinside
      obtain ⟨inside, rfl⟩ : ∃ k, n = k + 1 := ⟨n - 1, by omega⟩
      simp only [TypeRef.ofMembers, if_neg (Nat.succ_ne_zero inside), Nat.add_sub_cancel,
        ofItems_hold elements hitems (Nat.le_of_succ_le_succ hinside)]
      rfl
  | .generic name args, _, _, _, h, hdepth =>
    ofNode_keyed .generic h hdepth fun n _ hcontent hinside => by
      intros
      obtain ⟨start, members, rfl, hmembers⟩ := hcontent.object_inv
      simp only [Json.depth, Json.depthOfMembers, Nat.zero_max, Nat.max_zero] at hinside
      obtain ⟨inside, rfl⟩ : ∃ k, n = k + 1 + 1 := ⟨n - 2, by omega⟩
      have hgeneric := genericOfNode_hold hmembers fun items hitems =>
        ofItems_hold args hitems (Nat.le_of_succ_le_succ (Nat.le_of_succ_le_succ hinside))
      simp only [TypeRef.ofMembers, if_neg (Nat.succ_ne_zero (inside + 1)), Nat.add_sub_cancel,
        hgeneric]
      rfl

private theorem TypeRef.ofItems_hold : ∀ (ts : List TypeRef) {room i : Nat} {items : Items},
    items.Hold (TypeRef.toJsonList ts) → Json.depthOfItems (TypeRef.toJsonList ts) ≤ room →
      TypeRef.ofItems room i items = .ok ts
  | [], _, _, _, h, _ => by
    cases h with
    | done => rfl
  | t :: ts, _, _, _, h, hdepth => by
    cases h with
    | item hfirst hrest =>
      obtain ⟨hdepth, hdepths⟩ := Nat.max_le.mp hdepth
      rw [TypeRef.ofItems, ofNode_holds t hfirst hdepth, ofItems_hold ts hrest hdepths]
      rfl
end

private theorem Kind.ofNode_holds {kind : Kind} {node : Node} (h : node.Holds (.string kind.name)) :
    Kind.ofNode node = .ok kind := by
  obtain ⟨start, stop, rfl⟩ := h.scalar_inv (.string kind.name)
  cases kind <;> rfl

private theorem Members.definition_hold {kind : Kind} {room : Nat} : ∀ {members : Members}
    {xs : List (String × Json)}, members.Hold xs → Json.depthOfMembers xs ≤ room →
      kindKey ∉ xs.map Prod.fst → members.definition room (some kind) = .ok (kind, xs)
  | _, _, .done, _, _ => rfl
  | _, _, .member hfirst hrest, hdepth, hkey => by
    obtain ⟨hdepth, hdepths⟩ := Nat.max_le.mp hdepth
    obtain ⟨hne, hkeys⟩ := not_or.mp (mt List.mem_cons.mpr hkey)
    rw [Members.definition]
    simp only [if_neg (Ne.symm hne), hfirst.toJson hdepth, definition_hold hrest hdepths hkeys]
    rfl

theorem Definition.kindKey_notMem_content (d : Definition) :
    kindKey ∉ d.content.map Prod.fst := by
  cases d with
  | struct s => cases hparams : s.params <;> simp [content, paramsContent, kindKey, hparams]
  | union u => simp [content, kindKey]
  | enum e => simp [content, kindKey]
  | «alias» a => cases hparams : a.params <;> simp [content, paramsContent, kindKey, hparams]

private theorem Definition.ofNode_holds (d : Definition) {room : Nat} {node : Node}
    (h : node.Holds d.toJson) (hdepth : d.toJson.depth ≤ room) :
    Definition.ofNode room node = .ok d := by
  rw [d.toJson_eq] at h hdepth
  obtain ⟨start, members, rfl, hmembers⟩ := h.object_inv
  rw [Json.depth] at hdepth
  obtain ⟨room, rfl⟩ : ∃ n, room = n + 1 := ⟨room - 1, by omega⟩
  have hcontent : members.definition room none = .ok (d.kind, d.content) := by
    cases hmembers with
    | member hkind hrest =>
      have hdepths : Json.depthOfMembers d.content ≤ room :=
        (Nat.max_le.mp (Nat.le_of_succ_le_succ hdepth)).2
      have hrest := @Members.definition_hold d.kind room _ _ hrest hdepths d.kindKey_notMem_content
      rw [Members.definition]
      simp only [kindKey, Kind.ofNode_holds hkind]
      exact hrest
  rw [Definition.ofNode, Node.definition]
  simp only [if_neg (Nat.succ_ne_zero room), Nat.add_sub_cancel, hcontent]
  show (Definition.ofContent d.kind (.object d.content)).mapError Failure.ofCause = .ok d
  rw [d.ofContent_content]
  rfl

private theorem Items.definitions_hold : ∀ (ds : List Definition) {room i : Nat} {items : Items},
    items.Hold (ds.map Definition.toJson) →
      Json.depthOfItems (ds.map Definition.toJson) ≤ room → items.definitions room i = .ok ds
  | [], _, _, _, h, _ => by
    cases h with
    | done => rfl
  | d :: ds, _, _, _, h, hdepth => by
    cases h with
    | item hfirst hrest =>
      obtain ⟨hdepth, hdepths⟩ := Nat.max_le.mp hdepth
      rw [Items.definitions, d.ofNode_holds hfirst hdepth, definitions_hold ds hrest hdepths]
      rfl

section Record

variable {σ : Type} {reader : MemberReader σ} {members : Members} {seen : List String} {a b : σ}

private theorem Members.record_nil (h : members.Hold []) :
    members.record reader seen a = .ok a := by
  cases h with
  | done => rfl

private theorem Members.record_cons {k : String} {x : Json} {xs : List (String × Json)}
    {read : σ → Node → Except Failure σ} {out : Except Failure σ} (h : members.Hold ((k, x) :: xs))
    (known : reader k = some read) (fresh : k ∉ seen)
    (step : ∀ node : Node, node.Holds x → read a node = .ok b)
    (later : ∀ rest : Members, rest.Hold xs → rest.record reader (k :: seen) b = out) :
    members.record reader seen a = out := by
  cases h with
  | member hx hrest =>
    rw [Members.record]
    simp only [known, if_neg fresh, step _ hx]
    exact later _ hrest

end Record

private theorem Schema.ofNode_holds (s : Schema) {node : Node} (h : node.Holds s.toJson)
    (hdepth : s.toJson.depth ≤ depthLimit) : Schema.ofNode node = .ok s := by
  obtain ⟨start, members, rfl, hmembers⟩ := h.object_inv
  rw [Schema.ofNode, Node.record]
  refine Members.record_cons hmembers rfl List.not_mem_nil (fun node hnode => ?_)
    fun rest hrest => Members.record_nil hrest
  obtain ⟨_, items, rfl, hitems⟩ := hnode.array_inv
  have hdefinitions : items.definitions (depthLimit - 2) 0 = .ok s.types := by
    refine Items.definitions_hold s.types hitems ?_
    simp only [toJson, Json.depth, Json.depthOfMembers, Nat.max_zero] at hdepth
    omega
  show (items.definitions (depthLimit - 2) 0 >>= fun ds => .ok (⟨ds⟩ : Schema)) = _
  rw [hdefinitions]
  rfl

private theorem ShapePolicy.ofName_name (p : ShapePolicy) : ShapePolicy.ofName p.name = .ok p := by
  cases p <;> rfl

private theorem Options.ofNode_holds (o : Options) {node : Node} (h : node.Holds o.toJson) :
    Options.ofNode node = .ok o := by
  obtain ⟨start, members, rfl, hmembers⟩ := h.object_inv
  obtain ⟨shape, guardPrefix, exported, typesModule⟩ := o
  rw [Options.ofNode, Node.record]
  refine Members.record_cons (b := (⟨shape, "isa_", true, none⟩ : Options)) hmembers rfl (by decide)
    (fun node hnode => ?shape) fun _ h =>
    Members.record_cons (b := ⟨shape, guardPrefix, true, none⟩) h rfl (by decide)
    (fun node hnode => ?guardPrefix) fun _ h =>
    Members.record_cons (b := ⟨shape, guardPrefix, exported, none⟩) h rfl (by decide)
    (fun node hnode => ?exported) fun _ h =>
    Members.record_cons h rfl (by decide) (fun node hnode => ?typesModule) fun _ h =>
    Members.record_nil h
  case shape =>
    simp only [Node.unitVariant_holds hnode shape.ofName_name]
    rfl
  case guardPrefix =>
    simp only [Node.string?_holds hnode]
    rfl
  case exported =>
    simp only [Node.bool?_holds hnode]
    rfl
  case typesModule =>
    cases typesModule with
    | none =>
      obtain ⟨_, _, rfl⟩ := hnode.scalar_inv .null
      rfl
    | some name =>
      obtain ⟨_, _, rfl⟩ := hnode.scalar_inv (.string name)
      rfl

private theorem Document.read_layout {α : Type} {reader : Node → Except Failure α} {a : α}
    {x : Json} {text : String} (h : Layout x.lexemes text.toList)
    (hreader : ∀ node : Node, node.Holds x → reader node = .ok a) (origin : String) :
    Document.read reader origin text = .ok a := by
  obtain ⟨node, last, htext, -, hholds⟩ := Node.ofText_layout h
  rw [Document.read, htext]
  simp only [hreader node hholds]
  rfl

theorem Schema.ofText_toJson (s : Schema) (hdepth : s.toJson.depth ≤ depthLimit)
    (origin : String) : Schema.ofText origin s.toJson.compact = .ok s :=
  Document.read_layout (Json.layout_compact _ s.numberless_toJson)
    (fun _ h => s.ofNode_holds h hdepth) origin

/-- What was written as compact text is read back from it, whatever its names and texts are, if the
form nests no deeper than a document may; and parameters are written only if there are any. -/
theorem ofText_compact (origin : String) :
    (∀ s : Schema, s.toJson.depth ≤ depthLimit → Schema.ofText origin s.toJson.compact = .ok s) ∧
    (∀ t : TypeRef, t.toJson.depth ≤ depthLimit →
      TypeRef.ofText origin t.toJson.compact = .ok t) ∧
    (∀ o : Options, Options.ofText origin o.toJson.compact = .ok o) ∧
    ∀ d : Definition, ∃ members, d.toJson = .object members ∧
      ("params" ∈ members.map Prod.fst ↔ d.isGeneric = true) := by
  refine ⟨fun s hdepth => s.ofText_toJson hdepth origin, fun t hdepth => ?_, fun o => ?_,
    fun d => ?_⟩
  · exact Document.read_layout (Json.layout_compact _ t.numberless_toJson)
      (fun _ h => t.ofNode_holds h hdepth) origin
  · exact Document.read_layout (Json.layout_compact _ o.numberless_toJson)
      (fun _ h => o.ofNode_holds h) origin
  · refine ⟨_, d.toJson_eq, ?_⟩
    rw [List.map_cons, List.mem_cons, or_iff_right (by simp)]
    exact d.params_mem_content_iff

/-- Names and texts with marks, escapes, control characters and characters beyond the first plane, a
type declared twice, and a reference to none. -/
def oddities : Schema where
  types := [
    .enum ⟨"quo\"ted", ["back\\slash", "line\nbreak", "\x00\x1f\x7f", "ß€𝄞", ""]⟩,
    .struct
      { name := ""
        params := ["T"]
        fields := [⟨"\t", .map (.tuple [.parameter "T", .nullable (.generic "?" [])]), false⟩] },
    .enum ⟨"quo\"ted", []⟩]

theorem ofText_compact_oddities :
    Schema.ofText "odd.json" oddities.toJson.compact = .ok oddities ∧
    TypeRef.ofText "odd.json" (TypeRef.generic "\"" [.sequence (.named "\\")]).toJson.compact =
      .ok (.generic "\"" [.sequence (.named "\\")]) ∧
    Options.ofText "odd.json" (Options.toJson { guardPrefix := "\x1b" }).compact =
      .ok { guardPrefix := "\x1b" } := by
  refine ⟨?_, ?_, ?_⟩
  · exact (ofText_compact "odd.json").1 oddities (by decide)
  · exact (ofText_compact "odd.json").2.1 (.generic "\"" [.sequence (.named "\\")]) (by decide)
  · exact (ofText_compact "odd.json").2.2.1 { guardPrefix := "\x1b" }

end SchemaGuard
