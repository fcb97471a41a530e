import SchemaGuard.Proofs.Document.Definitions
import SchemaGuard.Proofs.Document.RoundTrip
import SchemaGuard.Proofs.Schema.Presentation

/-!
A schema presented in several ways. However the keys of its objects are ordered, whichever keys with
their defaults are left out, whatever stands under keys that are not known and however the text of
all this is spelled, the schema that is read is the same.
-/

set_option autoImplicit false
set_option relaxedAutoImplicit false

namespace SchemaGuard

/-- The value presents a definition in another way. -/
inductive Definition.Presents : Json → Json → Prop
  | object (kind : Kind) {ms ms' : List (String × Json)} : (kindKey, .string kind.name) ∈ ms →
    Json.Edits (kindKey :: kind.keys) Definition.inside ms ms' →
    Definition.Presents (.object ms) (.object ms')

private theorem Kind.ofName_name (kind : Kind) : Kind.ofName kind.name = .ok kind := by
  cases kind <;> rfl

private theorem Kind.name_injective : Function.Injective Kind.name := by
  intro kind kind' h
  have hname := kind.ofName_name
  rw [h, kind'.ofName_name] at hname
  exact (Except.ok.inj hname).symm

namespace Definition

private theorem kindKey_notMem_keys (kind : Kind) : kindKey ∉ kind.keys := by
  cases kind <;> decide

private theorem mem_keys_of_mem_content {d : Definition} {m : String × Json} (h : m ∈ d.content) :
    m.1 ∈ d.kind.keys := by
  cases d with
  | struct s | «alias» a =>
    simp only [content, List.cons_append, List.mem_cons, List.mem_append, mem_paramsContent_iff,
      List.not_mem_nil, or_false] at h
    rcases h with rfl | ⟨-, rfl⟩ | rfl <;> simp [kind, Kind.keys, Struct.record, Alias.record]
  | union u | enum e =>
    simp only [content, List.mem_cons, List.not_mem_nil, or_false] at h
    rcases h with rfl | rfl <;> simp [kind, Kind.keys, Union.record, Enum.record]

private theorem nodup_keys (d : Definition) :
    (((kindKey, Json.string d.kind.name) :: d.content).map Prod.fst).Nodup := by
  rw [List.map_cons, List.nodup_cons]
  refine ⟨d.kindKey_notMem_content, ?_⟩
  cases d with
  | struct s => cases hparams : s.params <;> simp [content, paramsContent, hparams]
  | union u => simp [content]
  | enum e => simp [content]
  | «alias» a => cases hparams : a.params <;> simp [content, paramsContent, hparams]

private theorem eq_of_kind_mem (d : Definition) {x : Json}
    (h : (kindKey, x) ∈ (kindKey, Json.string d.kind.name) :: d.content) :
    x = .string d.kind.name := by
  rcases List.mem_cons.mp h with heq | hmem
  · exact (Prod.mk.inj heq).2
  · exact absurd (List.mem_map.mpr ⟨_, hmem, rfl⟩) d.kindKey_notMem_content

section

variable {d : Definition} {ms : List (String × Json)}
  (h : Json.Edits (kindKey :: d.kind.keys) inside ((kindKey, .string d.kind.name) :: d.content) ms)

include h

private theorem kind_mem_of_edits : (kindKey, Json.string d.kind.name) ∈ ms := by
  have hkey : kindKey ∈ ms.map Prod.fst := by
    simpa [Json.default?, kindKey] using h.mem_or_default List.mem_cons_self
  obtain ⟨⟨_, x⟩, hmem, rfl⟩ := List.mem_map.mp hkey
  obtain ⟨y, hy, hinside⟩ := h.exists_of_mem List.mem_cons_self hmem
  obtain rfl : y = x := by simpa [inside, kindKey] using hinside
  exact d.eq_of_kind_mem hy ▸ hmem

private theorem ofContent_filter_of_edits :
    Definition.ofContent d.kind (.object (ms.filter isContent)) = .ok d := by
  have hkind {m : String × Json} (hkey : m.1 ∈ d.kind.keys) : m.1 ≠ kindKey := by
    intro heq
    rw [heq] at hkey
    exact kindKey_notMem_keys d.kind hkey
  refine d.ofContent_of_edits h (List.subset_cons_self _ _) d.nodup_keys (fun m => ?_)
    List.filter_sublist fun m hm hkey => List.mem_filter.mpr ⟨hm, isContent_of_ne (hkind hkey) m.2⟩
  constructor
  · exact fun hm => ⟨List.mem_cons_of_mem _ hm, mem_keys_of_mem_content hm⟩
  · rintro ⟨hm, hkey⟩
    exact (List.mem_cons.mp hm).resolve_left fun heq => hkind hkey (by rw [heq])

end

private theorem ofJson?_of_presents (d : Definition) {y : Json}
    (h : Definition.Presents d.toJson y) :
    Definition.ofJson? y = some d := by
  obtain @⟨kind, _, ms, hkind, hedits⟩ :
    Definition.Presents (.object ((kindKey, .string d.kind.name) :: d.content)) y := d.toJson_eq ▸ h
  obtain rfl : kind = d.kind := Kind.name_injective (Json.string.inj (d.eq_of_kind_mem hkind))
  have hone : (ms.filter fun m => !isContent m) = [(kindKey, .string d.kind.name)] :=
    (hedits.knownOnce d.nodup_keys).filter_eq List.mem_cons_self (fun m => by simp [isContent])
      (kind_mem_of_edits hedits)
  have htagged : (Json.object ms).tagged? = some (d.kind, .object (ms.filter isContent)) :=
    Json.tagged?_object_eq_some_iff.mpr ⟨⟨_, hone, d.kind.ofName_name⟩, rfl⟩
  simp [Definition.ofJson?, htagged, ofContent_filter_of_edits hedits, Except.toOption]

end Definition

private theorem Items.definitions_of_presents {room : Nat} : ∀ {items : Items} {xs : List Json}
    {ds : List Definition} {i : Nat}, items.Hold xs → Json.depthOfItems xs ≤ room →
      List.Forall₂ Definition.Presents (ds.map Definition.toJson) xs →
      items.definitions room i = .ok ds
  | _, _, [], _, .done, _, _ => rfl
  | _, _, d :: ds, _, .item hfirst hrest, hdepth, hpresents => by
    obtain ⟨hdepth, hdepths⟩ := Nat.max_le.mp hdepth
    obtain ⟨hd, hds⟩ := List.forall₂_cons.mp hpresents
    have hread := (Definition.ofNode_eq_ok_iff hfirst).mpr ⟨hdepth, d.ofJson?_of_presents hd⟩
    rw [Items.definitions, hread, definitions_of_presents hrest hdepths hds]
    rfl

private theorem Node.definitions_of_presents {node : Node} {x : Json} {ds : List Definition}
    {room : Nat} (h : node.Holds x) (hdepth : x.depth ≤ room)
    (hx : Json.Each Definition.Presents (.array (ds.map Definition.toJson)) x) :
    node.definitions room = .ok ds := by
  obtain @⟨_, xs, hpresents⟩ := hx
  obtain ⟨start, items, rfl, hitems⟩ := h.array_inv
  rw [Json.depth] at hdepth
  have hroom : room ≠ 0 := by omega
  rw [Node.definitions, if_neg hroom]
  exact Items.definitions_of_presents hitems (by omega) hpresents

mutual
private theorem Node.Holds.passOver_eq {node : Node} {x : Json} :
    node.Holds x → node.passOver = none
  | .scalar _ => rfl
  | .list h => h.passOver_eq
  | .object h => h.passOver_eq

private theorem Items.Hold.passOver_eq {items : Items} {xs : List Json} :
    items.Hold xs → items.passOver = none
  | .done => rfl
  | .item h hrest => by rw [Items.passOver, h.passOver_eq, hrest.passOver_eq]

private theorem Members.Hold.passOver_eq {members : Members} {xs : List (String × Json)} :
    members.Hold xs → members.passOver = none
  | .done => rfl
  | .member h hrest => by rw [Members.passOver, h.passOver_eq, hrest.passOver_eq]
end

private theorem Members.record_eq {σ : Type} {reader : MemberReader σ} {keys : List String}
    (part : List String → σ) (hother : ∀ k ∉ keys, reader k = none)
    {xs : List (String × Json)} {members : Members} (hmembers : members.Hold xs)
    (honce : Json.KnownOnce keys xs) (seen : List String)
    (hsteps : ∀ m ∈ xs, m.1 ∈ keys → m.1 ∉ seen ∧ ∃ read, reader m.1 = some read ∧
      ∀ node : Node, node.Holds m.2 → ∀ seen, read (part seen) node = .ok (part (m.1 :: seen))) :
    ∃ seen', members.record reader seen (part seen) = .ok (part seen') ∧ seen ⊆ seen' ∧
      Json.Covers keys xs seen' := by
  induction xs generalizing members seen with
  | nil =>
    cases hmembers with
    | done => exact ⟨seen, rfl, List.Subset.refl seen, nofun⟩
  | cons m xs ih =>
    obtain ⟨hne, hothers⟩ := List.pairwise_cons.mp honce
    obtain ⟨hstep, hlater⟩ := List.forall_mem_cons.mp hsteps
    cases hmembers with
    | @member k _ _ _ _ node _ x _ hfirst hrest =>
      rw [Members.record]
      by_cases hk : k ∈ keys
      -- The key joins those whose part has been read, and is not met again.
      · obtain ⟨hfresh, read, hknown, hread⟩ := hstep hk
        simp only [hknown, if_neg hfresh, hread node hfirst]
        obtain ⟨seen', hread, hseen, hkeys⟩ := ih hrest hothers (k :: seen)
          fun m hm hkey => ⟨List.not_mem_cons_of_ne_of_not_mem (hne m hm hk).symm
            (hlater m hm hkey).1, (hlater m hm hkey).2⟩
        obtain ⟨hkseen, hseen⟩ := List.cons_subset.mp hseen
        exact ⟨seen', hread, hseen, hkeys.cons fun _ => hkseen⟩
      · simp only [hother k hk, hfirst.passOver_eq]
        obtain ⟨seen', hread, hseen, hkeys⟩ := ih hrest hothers seen hlater
        exact ⟨seen', hread, hseen, hkeys.cons fun hmem => absurd hmem hk⟩

namespace Schema

/-- The value presents a schema in another way. -/
def Presents : Json → Json → Prop := Json.Presents ["types"] fun _ => Json.Each Definition.Presents

def upTo (s : Schema) (seen : List String) : Schema where
  types := if "types" ∈ seen then s.types else []

private theorem reader_eq_none {key : String} (h : key ∉ ["types"]) : reader key = none := by
  rw [reader]
  simpa using h

private theorem ofNode_of_presents (s : Schema) {node : Node} {x : Json} (h : node.Holds x)
    (hx : Schema.Presents s.toJson x) (hdepth : x.depth ≤ depthLimit) :
    Schema.ofNode node = .ok s := by
  obtain @⟨_, ms, hedits⟩ : Json.Presents ["types"] (fun _ => Json.Each Definition.Presents)
    (.object [("types", .array (s.types.map Definition.toJson))]) x := hx
  obtain ⟨start, members, rfl, hmembers⟩ := h.object_inv
  have honce := hedits.knownOnce (List.nodup_singleton _)
  have hsteps : ∀ m ∈ ms, m.1 ∈ ["types"] → m.1 ∉ [] ∧ ∃ read, reader m.1 = some read ∧
      ∀ node : Node, node.Holds m.2 → ∀ seen,
        read (s.upTo seen) node = .ok (s.upTo (m.1 :: seen)) := by
    rintro ⟨key, y⟩ hm hkey
    obtain rfl := List.mem_singleton.mp hkey
    refine ⟨List.not_mem_nil, _, rfl, fun node hnode seen => ?_⟩
    obtain ⟨_, hwritten, heach⟩ := hedits.exists_of_mem hkey hm
    obtain ⟨-, rfl⟩ := Prod.mk.inj (List.mem_singleton.mp hwritten)
    have hroom : y.depth ≤ depthLimit - 1 :=
      Nat.le_sub_one_of_lt (Nat.lt_of_lt_of_le (Json.depth_lt_of_mem_members hm) hdepth)
    rw [Node.definitions_of_presents hnode hroom heach]
    simp [upTo, bind, Except.bind, pure, Except.pure]
  obtain ⟨seen, hread, -, hkeys⟩ := Members.record_eq s.upTo (fun _ => reader_eq_none)
    hmembers honce [] hsteps
  have htypes : "types" ∈ seen ∨ s.types = [] := by
    have hpresent := (hedits.mem_or_default List.mem_cons_self).imp_left (hkeys _ (by decide))
    simpa [Json.default?] using hpresent
  have hwhole : s.upTo seen = s := by
    rw [upTo, ite_mem_eq_self htypes]
  rw [← hwhole, ← hread]
  rfl

/-- A schema is read from every text of every presentation of its written form that nests no deeper
than a document may. -/
theorem ofText_of_presents (origin : String) (s : Schema) {x : Json} {text : String}
    (hx : Schema.Presents s.toJson x) (hdepth : x.depth ≤ depthLimit) (htext : x.SpelledBy text) :
    Schema.ofText origin text = .ok s := by
  obtain ⟨tokens, stop, htokens, hscan⟩ := Token.scan_opening htext text.utf8ByteSize 0
  obtain ⟨node, hnode, hholds⟩ := Node.ofText_lexemes hscan htokens
  rw [Schema.ofText, Document.read, hnode, s.ofNode_of_presents hholds hx hdepth]
  rfl

end Schema

def boxField : Field := ⟨"x", .generic "Box" [.primitive .string], true⟩

/-- The field with its keys from last to first, without being said to be required and with a
note. -/
def boxFieldBackwards : Json :=
  .object [("ty", .object [("generic", .object [
      ("args", .array [.object [("primitive", .string "string")]]), ("name", .string "Box")])]),
    ("note", .null), ("name", .string "x")]

private theorem presents_boxField : Field.Presents boxField.toJson boxFieldBackwards := by
  have htype : boxField.type.toJson.Reordered (.object [("generic", .object [
      ("args", .array [.object [("primitive", .string "string")]]), ("name", .string "Box")])]) :=
    .object (List.Perm.refl _)
      (.cons ⟨.object (List.Perm.swap _ _ _) (Json.reordered_members _)⟩ .nil)
  have hname : Field.inside "name" (.string "x") (.string "x") := by simp [Field.inside]
  have hnew : "note" ∉ Field.record.keys := by decide
  refine .object (.move (.keep hname (.add hnew (.keep ?type (.leave rfl .nil))))
    (List.reverse_perm _).symm)
  simpa [Field.inside] using htype

def boxes : Schema where
  types := [
    .union ⟨"U", [⟨"a", [boxField]⟩]⟩,
    .struct { name := "Box", params := ["T"], fields := [] }]

/-- The definitions of the boxes with their keys from last to first, without the fields of the box
and that the variant's field is required, and with notes. -/
def boxesBackwards : List Json := [
  .object [("variants", .array [.object [("note", .object []),
      ("fields", .array [boxFieldBackwards]), ("tag", .string "a")]]),
    ("name", .string "U"), ("kind", .string "union")],
  .object [("params", .array [.string "T"]), ("name", .string "Box"), ("note", .bool false),
    ("note", .array [.array []]), ("kind", .string "struct")]]

private theorem presents_boxes :
    Schema.Presents boxes.toJson
      (.object [("since", .number (.integer (-7))), ("types", .array boxesBackwards)]) := by
  have hvariant : Variant.Presents (Variant.toJson ⟨"a", [boxField]⟩) (.object
      [("note", .object []), ("fields", .array [boxFieldBackwards]), ("tag", .string "a")]) := by
    have htag : Variant.inside "tag" (.string "a") (.string "a") := by simp [Variant.inside]
    have hfields : Variant.inside "fields" (.array [boxField.toJson])
        (.array [boxFieldBackwards]) := by
      rw [Variant.inside, if_pos rfl]
      exact .array (.cons presents_boxField .nil)
    exact .object (.move (.keep htag (.keep hfields (.add (by decide) .nil)))
      (List.reverse_perm _).symm)
  have hsame {key text : String} (hkey : key = kindKey ∨ key = "name") :
      Definition.inside key (.string text) (.string text) := by
    rcases hkey with rfl | rfl <;> simp [Definition.inside, kindKey]
  refine .object (.add (by decide) (.keep (.array (.cons ?union (.cons ?struct .nil))) .nil))
  case union =>
    have hvariants : Definition.inside "variants" (.array [Variant.toJson ⟨"a", [boxField]⟩])
        (.array [.object [("note", .object []), ("fields", .array [boxFieldBackwards]),
          ("tag", .string "a")]]) := by
      rw [Definition.inside, if_neg (by decide), if_pos rfl]
      exact .array (.cons hvariant .nil)
    exact .object .union List.mem_cons_self (.move (.keep (hsame (.inl rfl))
      (.keep (hsame (.inr rfl)) (.keep hvariants .nil))) (List.reverse_perm _).symm)
  case struct =>
    have hparams : Definition.inside "params" (.array [.string "T"]) (.array [.string "T"]) := by
      simp [Definition.inside]
    have hnew : "note" ∉ kindKey :: Kind.struct.keys := by decide
    exact .object .struct List.mem_cons_self (.move (.keep (hsame (.inl rfl)) (.add hnew (.add hnew
      (.keep (hsame (.inr rfl)) (.keep hparams (.leave rfl .nil)))))) (List.reverse_perm _).symm)

private theorem spelledBy_since (definitions : Json) (h : definitions.Numberless) :
    (Json.object [("since", .number (.integer (-7))), ("types", definitions)]).SpelledBy
      ("\x7b \"since\" : -7,\n\"types\":" ++ definitions.compact ++ " \x7d\n") := by
  have hwhole : Token.Scan.WholeSpelled ['7'] := .digits rfl (by decide) (by simp)
  have hvalue (start stop : Nat) :
      (Token.Scan.numeral true ['7'] [] none start).value stop = .ok (.integer (-7)) := rfl
  have hnumber : (Number.integer (-7)).SpelledBy ['-', '7'] := .intro hwhole .none .none hvalue
  have hend := (Json.layout_compact definitions h).append (.blank (c := ' ') rfl
    (.mark (c := '\x7d') rfl (.blank (c := '\n') rfl .nil)))
  have htypes := (Layout.lexeme (.string (s := "types")) (hend.mark (c := ':') rfl)).opening []
  have hstops (cs : List Char) : Token.Scan.Stops (',' :: cs) := by
    intro c hc
    obtain rfl := Option.some.inj hc
    decide
  have hsince := Opening.lexeme (.written (.string (s := "since"))) trivial
    (.blank (c := ' ') rfl (.lexeme (.written (.mark (c := ':') rfl)) trivial
      (.blank (c := ' ') rfl (.lexeme (.number hnumber) (hstops _)
        (.lexeme (.written (.mark (c := ',') rfl)) trivial (.blank (c := '\n') rfl htypes))))))
  have htext := Opening.lexeme (.written (.mark (c := '\x7b') rfl)) trivial
    (.blank (c := ' ') rfl hsince)
  have hkeys : (Text.quoted "since").toList = "\"since\"".toList ∧
      (Text.quoted "types").toList = "\"types\"".toList := by decide
  rw [hkeys.1, hkeys.2] at htext
  simpa [Json.SpelledBy, Json.lexemes, Json.lexemesOfMembers, Json.lexemesOfMoreMembers] using htext

theorem ofText_of_presents_boxes :
    (Json.object [("since", .number (.integer (-7))), ("types", .array boxesBackwards)]).depth ≤
        depthLimit ∧
      Schema.ofText "<input>"
        ("\x7b \"since\" : -7,\n\"types\":" ++ (Json.array boxesBackwards).compact ++ " \x7d\n") =
          .ok boxes := by
  have hdepth : (Json.object [("since", .number (.integer (-7))),
      ("types", .array boxesBackwards)]).depth ≤ depthLimit := by decide
  have htext := spelledBy_since (.array boxesBackwards)
    (by simp [boxesBackwards, boxFieldBackwards])
  exact ⟨hdepth, Schema.ofText_of_presents "<input>" boxes presents_boxes hdepth htext⟩

end SchemaGuard
