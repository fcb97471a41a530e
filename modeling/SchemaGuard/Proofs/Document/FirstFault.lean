import SchemaGuard.Proofs.Document.Definitions
import SchemaGuard.Proofs.Document.RoundTrip

/-!
Where a schema's failure is reported. Whatever stands behind it and whatever is wrong with it, the
first item of the list of definitions that is no definition is the one the path leads to. An item
stands two levels deep already, so it may nest two levels less than a definition alone.
-/

set_option autoImplicit false
set_option relaxedAutoImplicit false

namespace SchemaGuard

private theorem Items.definitions_error {room : Nat} {bad : Json} (hbad : ¬ bad.IsDefinition room) :
    ∀ {before : List Json} {items : Items} {i : Nat}, items.Begin (before ++ [bad]) →
      (∀ x ∈ before, x.IsDefinition room) → ∃ f more, items.definitions room i = .error f ∧
        f.path = .index (i + before.length) :: more
  | [], _, i, .item hnode _, _ => by
    cases hread : Definition.ofNode room _ with
    | ok d => exact absurd ((Definition.exists_ofNode_iff hnode).mp ⟨d, hread⟩) hbad
    | error f =>
      rw [Items.definitions, hread]
      exact ⟨_, f.path, rfl, rfl⟩
  | x :: before, _, i, .item hnode hrest, hbefore => by
    obtain ⟨hx, hlater⟩ := List.forall_mem_cons.mp hbefore
    obtain ⟨d, hread⟩ := (Definition.exists_ofNode_iff hnode).mpr hx
    obtain ⟨f, more, herror, hpath⟩ := definitions_error hbad (i := i + 1) hrest hlater
    refine ⟨f, more, ?_, ?_⟩
    · rw [Items.definitions, hread, herror]
      rfl
    · rw [hpath, List.length_cons]
      congr 2
      omega

/-- The lexemes that a document opens with whose only key is that of the definitions. -/
def Schema.lexemesOfFront (items : List Json) : List Lexeme :=
  .mark '\x7b' :: .string (.ok "types") :: .mark ':' :: .mark '[' :: Node.lexemesOfFront items

private theorem Schema.ofText_error (origin : String) {before : List Json} {bad : Json}
    {after : List Char} {text : String} (hbefore : ∀ x ∈ before, x.IsDefinition (depthLimit - 2))
    (hbad : ¬ bad.IsDefinition (depthLimit - 2))
    (htext : Opening after (Schema.lexemesOfFront (before ++ [bad])) text.toList) :
    ∃ e more, Schema.ofText origin text = .error e ∧
      e.path = .key "types" :: .index before.length :: more := by
  obtain ⟨tokens, stop, htokens, hscan⟩ := Token.scan_opening htext text.utf8ByteSize 0
  obtain ⟨start, keyStop, keyNext, listStart, items, next, resume, members, hnode, hitems⟩ :=
    Node.ofText_front hscan htokens
  obtain ⟨f, more, herror, hpath⟩ := Items.definitions_error hbad (i := 0) hitems hbefore
  have hread : Schema.ofNode (Node.ofText text).1 = .error (f.under (.key "types")) := by
    rw [hnode]
    show ((((items.definitions (depthLimit - 2) 0).bind fun ds => .ok (⟨ds⟩ : Schema)).mapError
      (Failure.under (.key "types"))).bind fun s => members.record Schema.reader ["types"] s) = _
    rw [herror]
    rfl
  refine ⟨⟨origin, .key "types" :: f.path, (f.under (.key "types")).causeText text⟩, more, ?_, ?_⟩
  · rw [Schema.ofText, Document.read, hread]
    rfl
  · simp only [hpath, Nat.zero_add]

private theorem Segment.pathText_types (i : Nat) (more : List Segment) : ∃ tail,
    pathText (.key "types" :: .index i :: more) = "types[" ++ toString i ++ "]" ++ tail := by
  have hassoc (number tail : String) : "" ++ "types" ++ ("[" ++ number ++ "]" ++ tail) =
      "types[" ++ number ++ "]" ++ tail := by
    simp only [String.empty_append, ← String.append_assoc]
    rfl
  exact ⟨_, hassoc _ _⟩

private theorem Json.layout_front (items : List Json) (h : ∀ x ∈ items, x.Numberless) :
    Layout (Node.lexemesOfFront items) (compactItems items).toList := by
  induction items with
  | nil => exact .nil
  | cons x rest ih =>
    obtain ⟨hx, hrest⟩ := List.forall_mem_cons.mp h
    have hfirst := layout_compact x hx
    cases rest with
    | nil => simpa [Node.lexemesOfFront, compactItems] using hfirst
    | cons y rest =>
      simpa [Node.lexemesOfFront, compactItems] using
        hfirst.append ((ih hrest).mark (c := ',') rfl)

private theorem Schema.opening_front (items : List Json) (h : ∀ x ∈ items, x.Numberless)
    (after : String) :
    Opening after.toList (Schema.lexemesOfFront items)
      ("\x7b\"types\":[" ++ Json.compactItems items ++ after).toList := by
  have hkey : (Text.quoted "types").toList = "\"types\"".toList := by decide
  have hlist := ((Json.layout_front items h).mark (c := '[') rfl).mark (c := ':') rfl
  have hobject := (Layout.lexeme (.string (s := "types")) hlist).mark (c := '\x7b') rfl
  rw [hkey] at hobject
  simpa [lexemesOfFront] using hobject.opening after.toList

/-- A document with a list of definitions fails at the first item that is none, or that nests too
deep: the path leads to this item or into it, whatever is wrong with it and whatever follows. -/
theorem Schema.ofText_points_at_first (origin : String) {before : List Json} {bad : Json}
    {after : List Char} {text : String}
    (hbefore : ∀ x ∈ before, x.IsDefinition (depthLimit - 2))
    (hbad : ¬ bad.IsDefinition (depthLimit - 2))
    (htext : Opening after (Schema.lexemesOfFront (before ++ [bad])) text.toList) :
    ∃ e more tail, Schema.ofText origin text = .error e ∧
      e.path = .key "types" :: .index before.length :: more ∧
      Segment.pathText e.path = "types[" ++ toString before.length ++ "]" ++ tail := by
  obtain ⟨e, more, herror, hpath⟩ := ofText_error origin hbefore hbad htext
  obtain ⟨tail, htail⟩ := Segment.pathText_types before.length more
  exact ⟨e, more, tail, herror, hpath, hpath ▸ htail⟩

def nameless : List Json :=
  [.object [("name", .string "E"), ("kind", .string "enum")], .object [("kind", .string "enum")]]

theorem ofText_points_at_first_nameless :
    (∀ x ∈ nameless.take 1, x.IsDefinition (depthLimit - 2)) ∧
      (∀ x ∈ nameless.drop 1, ¬ x.IsDefinition (depthLimit - 2)) ∧
      ∃ e more, Schema.ofText "<input>"
        ("\x7b\"types\":[" ++ Json.compactItems nameless ++ ", and so on") = .error e ∧
          e.path = .key "types" :: .index 1 :: more := by
  have hbefore : ∀ x ∈ nameless.take 1, x.IsDefinition (depthLimit - 2) := by
    intro x hx
    obtain rfl := List.mem_singleton.mp hx
    exact ⟨by decide, .enum ⟨"E", []⟩, by decide⟩
  have hbad : ∀ x ∈ nameless.drop 1, ¬ x.IsDefinition (depthLimit - 2) := by
    intro x hx ⟨_, d, hd⟩
    obtain rfl := List.mem_singleton.mp hx
    have hnone : Definition.ofJson? (.object [("kind", .string "enum")]) = none := by
      decide
    rw [hnone] at hd
    cases hd
  have htext := Schema.opening_front nameless (by simp [nameless]) ", and so on"
  obtain ⟨e, more, tail, herror, hpath, -⟩ :=
    Schema.ofText_points_at_first "<input>" hbefore (hbad _ (List.mem_singleton_self _)) htext
  exact ⟨hbefore, hbad, e, more, herror, hpath⟩

def deepType : Nat → TypeRef
  | 0 => .primitive .number
  | n + 1 => .sequence (deepType n)

/-- A definition that nests a level less than it may alone. -/
def deepDefinition : Definition := .alias ⟨"A", [], deepType 124⟩

/-- Where a definition that can be read alone nests too deep for a place in a list, the path leads
to it and not to the first item that is no definition. -/
theorem ofText_points_at_deep :
    deepDefinition.toJson.IsDefinition depthLimit ∧ ¬ Json.null.IsDefinition depthLimit ∧
      ∃ e, Schema.ofText "<input>"
        ("\x7b\"types\":[" ++ Json.compactItems [deepDefinition.toJson, .null] ++ "]\x7d") =
          .error e ∧ ¬ ∃ more, e.path = .key "types" :: .index 1 :: more := by
  have hdepth : deepDefinition.toJson.depth = 126 := by decide +kernel
  have halone : deepDefinition.toJson.IsDefinition depthLimit :=
    ⟨by rw [hdepth]; decide, deepDefinition, by decide +kernel⟩
  have hdeep : ¬ deepDefinition.toJson.IsDefinition (depthLimit - 2) := by
    rintro ⟨hlevels, -⟩
    rw [hdepth] at hlevels
    exact absurd hlevels (by decide)
  have hnull : ¬ Json.null.IsDefinition depthLimit := by
    rintro ⟨-, d, hd⟩
    cases hd
  have htext := Schema.opening_front [deepDefinition.toJson]
    (List.forall_mem_singleton.mpr deepDefinition.numberless_toJson) ",null]\x7d"
  have hbefore : ∀ x ∈ ([] : List Json), x.IsDefinition (depthLimit - 2) := nofun
  obtain ⟨e, more, herror, hpath⟩ := Schema.ofText_error "<input>" hbefore hdeep htext
  have hsame : "\x7b\"types\":[" ++ Json.compactItems [deepDefinition.toJson, .null] ++ "]\x7d" =
      "\x7b\"types\":[" ++ Json.compactItems [deepDefinition.toJson] ++ ",null]\x7d" := by
    simp only [Json.compactItems, Json.compact, String.append_assoc]
    rfl
  refine ⟨halone, hnull, e, by rw [hsame, herror], fun ⟨other, hother⟩ => ?_⟩
  rw [hpath] at hother
  simp at hother

end SchemaGuard
