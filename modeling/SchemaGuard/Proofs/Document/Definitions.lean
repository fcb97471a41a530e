import SchemaGuard.Document.Reader
import SchemaGuard.Proofs.Attempt
import SchemaGuard.Proofs.Json.Spelled
import SchemaGuard.Proofs.Json.Tree

/-!
Definitions as values. Which value is a definition is told without its text: its kind is looked up
among its members or stands first in a list, and the rest is read by the record of the kind. A
definition is read from a text of a value if the value is one and nests no deeper than it may.
-/

set_option autoImplicit false
set_option relaxedAutoImplicit false

namespace SchemaGuard

def isContent (m : String × Json) : Bool := m.1 != kindKey

/-- The kind of a value and what it says besides: the one member for the kind and all others, or the
first item of a list and those behind it. -/
def Json.tagged? : Json → Option (Kind × Json)
  | .object members =>
    match members.filter fun m => !isContent m with
    | [(_, .string name)] =>
      (Kind.ofName name).toOption.map fun kind => (kind, .object (members.filter isContent))
    | _ => none
  | .array (.string name :: items) =>
    (Kind.ofName name).toOption.map fun kind => (kind, .array items)
  | _ => none

def Definition.ofJson? (x : Json) : Option Definition := do
  let (kind, content) ← x.tagged?
  (Definition.ofContent kind content).toOption

/-- The value can be read as a definition where it may have `room` levels of arrays and objects. -/
def Json.IsDefinition (room : Nat) (x : Json) : Prop :=
  x.depth ≤ room ∧ ∃ d, Definition.ofJson? x = some d

mutual
private theorem Node.Holds.depth_le {node : Node} {x y : Json} {room : Nat} :
    node.Holds x → node.toJson room = .ok y → x.depth ≤ room
  | @Node.Holds.scalar _ _ s _ h, _ => by
    subst h
    cases s <;> exact Nat.zero_le _
  | .list h, hread => by
    cases room with
    | zero => cases hread
    | succ room =>
      obtain ⟨_, hitems, -⟩ := Except.bind_eq_ok_iff.mp hread
      exact Nat.succ_le_succ (h.depth_le hitems)
  | .object h, hread => by
    cases room with
    | zero => cases hread
    | succ room =>
      obtain ⟨_, hmembers, -⟩ := Except.bind_eq_ok_iff.mp hread
      exact Nat.succ_le_succ (h.depth_le hmembers)

private theorem Items.Hold.depth_le {items : Items} {xs ys : List Json} {room i : Nat} :
    items.Hold xs → items.toJson room i = .ok ys → Json.depthOfItems xs ≤ room
  | .done, _ => Nat.zero_le _
  | .item h hrest, hread => by
    obtain ⟨_, hfirst, hread⟩ := Except.bind_eq_ok_iff.mp hread
    obtain ⟨_, hothers, -⟩ := Except.bind_eq_ok_iff.mp hread
    exact Nat.max_le.mpr ⟨h.depth_le (Except.mapError_eq_ok_iff.mp hfirst), hrest.depth_le hothers⟩

private theorem Members.Hold.depth_le {members : Members} {xs ys : List (String × Json)}
    {room : Nat} :
    members.Hold xs → members.toJson room = .ok ys → Json.depthOfMembers xs ≤ room
  | .done, _ => Nat.zero_le _
  | .member h hrest, hread => by
    obtain ⟨_, hfirst, hread⟩ := Except.bind_eq_ok_iff.mp hread
    obtain ⟨_, hothers, -⟩ := Except.bind_eq_ok_iff.mp hread
    exact Nat.max_le.mpr ⟨h.depth_le (Except.mapError_eq_ok_iff.mp hfirst), hrest.depth_le hothers⟩
end

private theorem Node.Holds.toJson_eq_ok_iff {node : Node} {x y : Json} {room : Nat}
    (h : node.Holds x) :
    node.toJson room = .ok y ↔ x.depth ≤ room ∧ y = x := by
  constructor
  · intro hread
    have hdepth := h.depth_le hread
    rw [h.toJson hdepth] at hread
    exact ⟨hdepth, (Except.ok.inj hread).symm⟩
  · rintro ⟨hdepth, rfl⟩
    exact h.toJson hdepth

private theorem Items.Hold.toJson_eq_ok_iff {items : Items} {xs ys : List Json} {room i : Nat}
    (h : items.Hold xs) : items.toJson room i = .ok ys ↔ Json.depthOfItems xs ≤ room ∧ ys = xs := by
  constructor
  · intro hread
    have hdepth := h.depth_le hread
    rw [h.toJson hdepth] at hread
    exact ⟨hdepth, (Except.ok.inj hread).symm⟩
  · rintro ⟨hdepth, rfl⟩
    exact h.toJson hdepth

private theorem Kind.ofNode_eq_ok_iff {node : Node} {x : Json} {kind : Kind} (h : node.Holds x) :
    Kind.ofNode node = .ok kind ↔ ∃ name, x = .string name ∧ Kind.ofName name = .ok kind := by
  cases h with
  | @scalar start stop s _ hs =>
    subst hs
    cases s with
    | string name => simp [Kind.ofNode, Scalar.toJson, Except.mapError_eq_ok_iff]
    | null | bool | number => simp [Kind.ofNode, Scalar.toJson]
  | list | object => simp [Kind.ofNode]

@[simp] private theorem isContent_kindKey (x : Json) : isContent (kindKey, x) = false := by
  simp [isContent]

theorem isContent_of_ne {key : String} (h : key ≠ kindKey) (x : Json) :
    isContent (key, x) = true := by
  simpa [isContent] using h

private theorem filter_isContent {xs : List (String × Json)}
    (h : (xs.filter fun m => !isContent m) = []) : xs.filter isContent = xs :=
  List.filter_eq_self.mpr fun m hm => by simpa using List.filter_eq_nil_iff.mp h m hm

private theorem Members.definition_some_eq_ok_iff {kind kind' : Kind} {room : Nat} :
    ∀ {members : Members}
    {xs ys : List (String × Json)}, members.Hold xs →
      (members.definition room (some kind) = .ok (kind', ys) ↔
        Json.depthOfMembers xs ≤ room ∧ (xs.filter fun m => !isContent m) = [] ∧
          kind' = kind ∧ ys = xs)
  | _, _, _, .done => by
    simp [Members.definition, Json.depthOfMembers, eq_comm]
  | _, _, ys, @Members.Hold.member k _ _ _ _ _ _ x xs hfirst hrest => by
    rw [Members.definition, Json.depthOfMembers, Nat.max_le]
    by_cases hk : k = kindKey
    · simp [hk]
    · simp only [if_neg hk, Except.bind_eq_ok_iff, Except.mapError_eq_ok_iff,
        hfirst.toJson_eq_ok_iff, List.filter_cons, isContent_of_ne hk]
      constructor
      · rintro ⟨_, ⟨hdepth, rfl⟩, ⟨_, zs⟩, hothers, hpure⟩
        obtain ⟨hdepths, hnone, rfl, rfl⟩ := (definition_some_eq_ok_iff hrest).mp hothers
        obtain ⟨rfl, rfl⟩ := Prod.mk.inj (Except.ok.inj hpure)
        exact ⟨⟨hdepth, hdepths⟩, hnone, rfl, rfl⟩
      · rintro ⟨⟨hdepth, hdepths⟩, hnone, rfl, rfl⟩
        exact ⟨x, ⟨hdepth, rfl⟩, (kind', xs),
          (definition_some_eq_ok_iff hrest).mpr ⟨hdepths, hnone, rfl, rfl⟩, rfl⟩

private theorem Members.definition_none_eq_ok_iff {kind : Kind} {room : Nat} : ∀ {members : Members}
    {xs ys : List (String × Json)}, members.Hold xs →
      (members.definition room none = .ok (kind, ys) ↔
        Json.depthOfMembers xs ≤ room ∧ (∃ name, (xs.filter fun m => !isContent m) =
          [(kindKey, .string name)] ∧ Kind.ofName name = .ok kind) ∧ ys = xs.filter isContent)
  | _, _, _, .done => by
    simp [Members.definition]
  | _, _, ys, @Members.Hold.member k _ _ _ _ _ _ x xs hfirst hrest => by
    rw [Members.definition, Json.depthOfMembers, Nat.max_le]
    by_cases hk : k = kindKey
    · subst hk
      simp only [if_true, Option.isSome_none, Bool.false_eq_true, if_false, Except.bind_eq_ok_iff,
        Except.mapError_eq_ok_iff, Kind.ofNode_eq_ok_iff hfirst, List.filter_cons,
        isContent_kindKey, Bool.not_false, List.cons.injEq, Prod.mk.injEq, true_and,
        definition_some_eq_ok_iff hrest]
      constructor
      · rintro ⟨_, ⟨name, rfl, hname⟩, hdepths, hnone, rfl, rfl⟩
        exact ⟨⟨Nat.zero_le _, hdepths⟩, ⟨name, ⟨rfl, hnone⟩, hname⟩, (filter_isContent hnone).symm⟩
      · rintro ⟨⟨-, hdepths⟩, ⟨name, ⟨rfl, hnone⟩, hname⟩, rfl⟩
        exact ⟨kind, ⟨name, rfl, hname⟩, hdepths, hnone, rfl, filter_isContent hnone⟩
    · -- A member in front of the kind is taken into memory before the kind is known.
      simp only [if_neg hk, Except.bind_eq_ok_iff, Except.mapError_eq_ok_iff,
        hfirst.toJson_eq_ok_iff, List.filter_cons, isContent_of_ne hk]
      constructor
      · rintro ⟨_, ⟨hdepth, rfl⟩, ⟨_, zs⟩, hothers, hpure⟩
        obtain ⟨hdepths, hkind, rfl⟩ := (definition_none_eq_ok_iff hrest).mp hothers
        obtain ⟨rfl, rfl⟩ := Prod.mk.inj (Except.ok.inj hpure)
        exact ⟨⟨hdepth, hdepths⟩, hkind, rfl⟩
      · rintro ⟨⟨hdepth, hdepths⟩, hkind, rfl⟩
        exact ⟨x, ⟨hdepth, rfl⟩, (kind, xs.filter isContent),
          (definition_none_eq_ok_iff hrest).mpr ⟨hdepths, hkind, rfl⟩, rfl⟩

private theorem Node.definition_list_eq_ok_iff {start room : Nat} {items : Items} {xs : List Json}
    {content : Json} {kind : Kind} (h : items.Hold xs) :
    (Node.list start items).definition room = .ok (kind, content) ↔
      (Json.array xs).depth ≤ room ∧ (Json.array xs).tagged? = some (kind, content) := by
  cases room with
  | zero => simp [Node.definition, Json.depth]
  | succ room =>
    cases h with
    | done => simp [Node.definition, Json.tagged?]
    | @item node resume rest x xs hfirst hrest =>
      simp only [Node.definition, Nat.add_one_ne_zero, if_false, Nat.add_sub_cancel,
        Except.bind_eq_ok_iff, Except.mapError_eq_ok_iff, Kind.ofNode_eq_ok_iff hfirst,
        hrest.toJson_eq_ok_iff, Json.depth, Json.depthOfItems, Nat.add_le_add_iff_right,
        Nat.max_le]
      constructor
      · rintro ⟨_, ⟨name, rfl, hname⟩, _, ⟨hdepths, rfl⟩, hpure⟩
        obtain ⟨rfl, rfl⟩ := Prod.mk.inj (Except.ok.inj hpure)
        exact ⟨⟨Nat.zero_le _, hdepths⟩, by simp [Json.tagged?, hname, Except.toOption]⟩
      · rintro ⟨⟨-, hdepths⟩, htagged⟩
        cases x with
        | string name =>
          obtain ⟨kind', hname, heq⟩ := Option.map_eq_some_iff.mp htagged
          obtain ⟨rfl, rfl⟩ := Prod.mk.inj heq
          have hname := Except.toOption_eq_some_iff.mp hname
          exact ⟨kind', ⟨name, rfl, hname⟩, xs, ⟨hdepths, rfl⟩, rfl⟩
        | _ => cases htagged

theorem Json.tagged?_object_eq_some_iff {xs : List (String × Json)} {content : Json} {kind : Kind} :
    (Json.object xs).tagged? = some (kind, content) ↔
      (∃ name, (xs.filter fun m => !isContent m) = [(kindKey, .string name)] ∧
        Kind.ofName name = .ok kind) ∧ content = .object (xs.filter isContent) := by
  constructor
  · intro htagged
    rw [Json.tagged?] at htagged
    split at htagged
    · next key name hkind =>
      obtain ⟨kind', hname, heq⟩ := Option.map_eq_some_iff.mp htagged
      obtain ⟨rfl, rfl⟩ := Prod.mk.inj heq
      have hmem : (key, Json.string name) ∈ xs.filter fun m => !isContent m := by simp [hkind]
      have hkey : key = kindKey := by simpa [isContent] using (List.mem_filter.mp hmem).2
      subst hkey
      exact ⟨⟨name, hkind, Except.toOption_eq_some_iff.mp hname⟩, rfl⟩
    · cases htagged
  · rintro ⟨⟨name, hkind, hname⟩, rfl⟩
    simp [Json.tagged?, hkind, hname, Except.toOption]

private theorem Node.definition_eq_ok_iff {node : Node} {x content : Json} {kind : Kind}
    {room : Nat} (h : node.Holds x) : node.definition room = .ok (kind, content) ↔
      x.depth ≤ room ∧ x.tagged? = some (kind, content) := by
  cases h with
  | @scalar start stop s _ hs =>
    subst hs
    cases s <;> simp [Node.definition, Scalar.toJson, Json.tagged?]
  | list h => exact definition_list_eq_ok_iff h
  | @object start members xs h =>
    cases room with
    | zero => simp [Node.definition, Json.depth]
    | succ room =>
      simp only [Node.definition, Nat.add_one_ne_zero, if_false, Nat.add_sub_cancel,
        Except.bind_eq_ok_iff, Json.depth, Nat.add_le_add_iff_right, Prod.exists,
        Members.definition_none_eq_ok_iff h, Json.tagged?_object_eq_some_iff]
      constructor
      · rintro ⟨_, _, ⟨hdepths, hkind, rfl⟩, hpure⟩
        obtain ⟨rfl, rfl⟩ := Prod.mk.inj (Except.ok.inj hpure)
        exact ⟨hdepths, hkind, rfl⟩
      · rintro ⟨hdepths, hkind, rfl⟩
        exact ⟨kind, xs.filter isContent, ⟨hdepths, hkind, rfl⟩, rfl⟩

/-- A definition is read from a tree if its value is that definition. -/
theorem Definition.ofNode_eq_ok_iff {node : Node} {x : Json} {d : Definition} {room : Nat}
    (h : node.Holds x) :
    Definition.ofNode room node = .ok d ↔ x.depth ≤ room ∧ Definition.ofJson? x = some d := by
  simp only [Definition.ofNode, Except.bind_eq_ok_iff, Except.mapError_eq_ok_iff, Prod.exists,
    Node.definition_eq_ok_iff h, Definition.ofJson?, Option.bind_eq_bind, Option.bind_eq_some_iff,
    Except.toOption_eq_some_iff, and_assoc, exists_and_left]

theorem Definition.exists_ofNode_iff {node : Node} {x : Json} {room : Nat} (h : node.Holds x) :
    (∃ d, Definition.ofNode room node = .ok d) ↔ x.IsDefinition room := by
  simp only [Definition.ofNode_eq_ok_iff h, exists_and_left, Json.IsDefinition]

/-- A text of a value is read as a definition if the value is one. -/
theorem Definition.exists_ofText_iff {x : Json} {text : String} (h : x.SpelledBy text)
    (origin : String) :
    (∃ d, Definition.ofText origin text = .ok d) ↔ x.IsDefinition depthLimit := by
  obtain ⟨tokens, stop, htokens, hscan⟩ := Token.scan_opening h text.utf8ByteSize 0
  obtain ⟨node, htext, hholds⟩ := Node.ofText_lexemes hscan htokens
  rw [← Definition.exists_ofNode_iff hholds]
  simp only [Definition.ofText, Document.read, htext, Except.mapError_eq_ok_iff]

end SchemaGuard
