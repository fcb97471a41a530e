import SchemaGuard.Document.Reading
import SchemaGuard.Proofs.Json.Layout

/-!
The tree of a text that lays out a value. Building the tree takes the value's lexemes and no more,
and comes upon no fault; the tree holds the value.
-/

set_option autoImplicit false
set_option relaxedAutoImplicit false

namespace SchemaGuard

mutual
/-- The tree is without faults and that of a text for the value. -/
inductive Node.Holds : Node → Json → Prop
  | scalar {start stop : Nat} {x : Scalar} {v : Json} : x.toJson = v →
    Node.Holds (.scalar start stop x) v
  | list {start : Nat} {items : Items} {xs : List Json} :
    items.Hold xs → Node.Holds (.list start items) (.array xs)
  | object {start : Nat} {members : Members} {xs : List (String × Json)} :
    members.Hold xs → Node.Holds (.object start members) (.object xs)

inductive Items.Hold : Items → List Json → Prop
  | done {stop : Nat} : Items.Hold (.done (.closed stop)) []
  | item {node : Node} {resume : Nat} {rest : Items} {x : Json} {xs : List Json} :
    node.Holds x → rest.Hold xs → Items.Hold (.item node resume rest) (x :: xs)

inductive Members.Hold : Members → List (String × Json) → Prop
  | done {stop : Nat} : Members.Hold (.done (.closed stop)) []
  | member {k : String} {keyStop keyNext next resume : Nat} {node : Node} {rest : Members}
    {x : Json} {xs : List (String × Json)} : node.Holds x → rest.Hold xs →
    Members.Hold (.member ⟨.ok k, keyStop, keyNext⟩ node next resume rest) ((k, x) :: xs)
end

/-- The items begin with trees of the values. -/
inductive Items.Begin : Items → List Json → Prop
  | nil {items : Items} : Items.Begin items []
  | item {node : Node} {resume : Nat} {rest : Items} {x : Json} {xs : List Json} :
    node.Holds x → rest.Begin xs → Items.Begin (.item node resume rest) (x :: xs)

namespace Node

def opens : Lexeme → Bool
  | .null | .bool _ | .number (.ok _) | .string (.ok _) => true
  | .mark c => c = '[' || c = '\x7b'
  | _ => false

private theorem exists_lexemes_eq_cons (x : Json) :
    ∃ l ls, x.lexemes = l :: ls ∧ opens l = true := by
  cases x with
  | _ => exact ⟨_, _, by rw [Json.lexemes], rfl⟩

/-- The reader takes tokens of the lexemes off the front, whatever follows them, and what it makes
of them is as told. -/
private def Takes {α : Type} (read : Nat → List Token → α × List Token) (lexemes : List Lexeme)
    (holds : α → Prop) : Prop :=
  ∀ fuel tokens rest, tokens.map Token.lexeme = lexemes → 2 * tokens.length ≤ fuel →
    ∃ a, read fuel (tokens ++ rest) = (a, rest) ∧ holds a

private theorem Takes.of_cons {α : Type} {read : Nat → List Token → α × List Token} {l : Lexeme}
    {ls : List Lexeme} {holds : α → Prop}
    (h : ∀ fuel t tokens rest, t.lexeme = l → tokens.map Token.lexeme = ls →
      2 * tokens.length < fuel →
      ∃ a, read (fuel + 1) (t :: (tokens ++ rest)) = (a, rest) ∧ holds a) :
    Takes read (l :: ls) holds := by
  intro fuel tokens rest htokens hfuel
  obtain ⟨t, tail, rfl, ht, htail⟩ := List.map_eq_cons_iff.mp htokens
  rw [List.length_cons] at hfuel
  obtain ⟨fuel, rfl⟩ : ∃ n, fuel = n + 1 := ⟨fuel - 1, by omega⟩
  exact h fuel t tail rest ht htail (by omega)

private theorem takes_scalar {l : Lexeme} {x : Scalar}
    (h : ∀ fuel t rest, t.lexeme = l →
      value (fuel + 1) (t :: rest) = (.scalar t.start t.stop x, rest)) :
    Takes value [l] fun node => node.Holds x.toJson := by
  refine .of_cons fun fuel t tokens rest ht htokens _ => ?_
  obtain rfl := List.map_eq_nil_iff.mp htokens
  exact ⟨_, h fuel t rest ht, .scalar rfl⟩

private theorem takes_list {items : List Json}
    (h : Takes firstItem (Json.lexemesOfItems items) fun is => is.Hold items) :
    Takes value (Json.array items).lexemes fun node => node.Holds (.array items) := by
  refine .of_cons fun fuel t tokens rest ht htokens hfuel => ?_
  obtain ⟨is, hread, his⟩ := h fuel tokens rest htokens (by omega)
  exact ⟨.list t.start is, by simp [value, head, ht, hread], .list his⟩

private theorem takes_object {members : List (String × Json)}
    (h : Takes firstMember (Json.lexemesOfMembers members) fun ms => ms.Hold members) :
    Takes value (Json.object members).lexemes fun node => node.Holds (.object members) := by
  refine .of_cons fun fuel t tokens rest ht htokens hfuel => ?_
  obtain ⟨ms, hread, hms⟩ := h fuel tokens rest htokens (by omega)
  exact ⟨.object t.start ms, by simp [value, head, ht, hread], .object hms⟩

private theorem takes_noItem : Takes firstItem [.mark ']'] fun is => is.Hold [] := by
  refine .of_cons fun fuel t tokens rest ht htokens _ => ?_
  obtain rfl := List.map_eq_nil_iff.mp htokens
  exact ⟨_, by simp [firstItem, head, ht]; rfl, .done⟩

private theorem takes_noMoreItem : Takes moreItems [.mark ']'] fun is => is.Hold [] := by
  refine .of_cons fun fuel t tokens rest ht htokens _ => ?_
  obtain rfl := List.map_eq_nil_iff.mp htokens
  exact ⟨_, by simp [moreItems, head, ht]; rfl, .done⟩

private theorem firstItem_of_opens {t : Token} {tokens rest : List Token} {fuel : Nat} {node : Node}
    (hopens : opens t.lexeme = true) (hvalue : value fuel (t :: tokens) = (node, rest)) :
    firstItem (fuel + 1) (t :: tokens) =
      (.item node (resumeInList rest) (moreItems fuel rest).1, (moreItems fuel rest).2) := by
  simp only [firstItem, head]
  split
  · next heq => simp [heq, opens] at hopens
  · next heq => simp [heq, opens] at hopens
  · rw [hvalue]

private theorem moreItems_of_opens {comma t : Token} {tokens rest : List Token} {fuel : Nat}
    {node : Node} (hcomma : comma.lexeme = .mark ',') (hopens : opens t.lexeme = true)
    (hvalue : value fuel (t :: tokens) = (node, rest)) :
    moreItems (fuel + 1) (comma :: t :: tokens) =
      (.item node (resumeInList rest) (moreItems fuel rest).1, (moreItems fuel rest).2) := by
  simp only [moreItems, head, hcomma, List.tail_cons]
  split
  · next heq => simp [heq, opens] at hopens
  · next heq => simp [heq, opens] at hopens
  · rw [hvalue]

private theorem exists_split {x : Json} {more : List Lexeme} {tokens : List Token}
    (h : tokens.map Token.lexeme = x.lexemes ++ more) :
    ∃ t first second, tokens = t :: first ++ second ∧ opens t.lexeme = true ∧
      (t :: first).map Token.lexeme = x.lexemes ∧ second.map Token.lexeme = more := by
  obtain ⟨front, second, rfl, hfront, hsecond⟩ := List.map_eq_append_iff.mp h
  obtain ⟨l, ls, hx, hopens⟩ := exists_lexemes_eq_cons x
  obtain ⟨t, first, rfl, rfl, hfirst⟩ := List.map_eq_cons_iff.mp (hfront.trans hx)
  exact ⟨t, first, second, rfl, hopens, hfront, hsecond⟩

private theorem takes_firstItem {x : Json} {xs : List Json}
    (hx : Takes value x.lexemes fun node => node.Holds x)
    (hxs : Takes moreItems (Json.lexemesOfMoreItems xs) fun is => is.Hold xs) :
    Takes firstItem (Json.lexemesOfItems (x :: xs)) fun is => is.Hold (x :: xs) := by
  intro fuel tokens rest htokens hfuel
  obtain ⟨t, first, second, rfl, hopens, hfirst, hsecond⟩ := exists_split htokens
  have hpos : 0 < second.length := by
    rw [← List.length_map (f := Token.lexeme), hsecond]
    cases xs <;> simp [Json.lexemesOfMoreItems]
  simp only [List.length_append, List.length_cons] at hfuel
  obtain ⟨fuel, rfl⟩ : ∃ n, fuel = n + 1 := ⟨fuel - 1, by omega⟩
  obtain ⟨node, hnode, hholds⟩ := hx fuel (t :: first) (second ++ rest) hfirst (by simp; omega)
  obtain ⟨is, his, hhold⟩ := hxs fuel second rest hsecond (by omega)
  refine ⟨.item node (resumeInList (second ++ rest)) is, ?_, .item hholds hhold⟩
  rw [List.cons_append] at hnode
  rw [List.append_assoc, List.cons_append, firstItem_of_opens hopens hnode, his]

private theorem takes_moreItems {x : Json} {xs : List Json}
    (hx : Takes value x.lexemes fun node => node.Holds x)
    (hxs : Takes moreItems (Json.lexemesOfMoreItems xs) fun is => is.Hold xs) :
    Takes moreItems (Json.lexemesOfMoreItems (x :: xs)) fun is => is.Hold (x :: xs) := by
  refine .of_cons fun fuel comma tokens rest hcomma htokens hfuel => ?_
  obtain ⟨t, first, second, rfl, hopens, hfirst, hsecond⟩ := exists_split htokens
  simp only [List.length_append, List.length_cons] at hfuel
  obtain ⟨node, hnode, hholds⟩ := hx fuel (t :: first) (second ++ rest) hfirst (by simp; omega)
  obtain ⟨is, his, hhold⟩ := hxs fuel second rest hsecond (by omega)
  refine ⟨.item node (resumeInList (second ++ rest)) is, ?_, .item hholds hhold⟩
  rw [List.cons_append] at hnode
  rw [List.append_assoc, List.cons_append, moreItems_of_opens hcomma hopens hnode, his]

private theorem takes_noMember : Takes firstMember [.mark '\x7d'] fun ms => ms.Hold [] := by
  refine .of_cons fun fuel t tokens rest ht htokens _ => ?_
  obtain rfl := List.map_eq_nil_iff.mp htokens
  exact ⟨_, by simp [firstMember, head, ht]; rfl, .done⟩

private theorem takes_noMoreMember : Takes moreMembers [.mark '\x7d'] fun ms => ms.Hold [] := by
  refine .of_cons fun fuel t tokens rest ht htokens _ => ?_
  obtain rfl := List.map_eq_nil_iff.mp htokens
  exact ⟨_, by simp [moreMembers, head, ht]; rfl, .done⟩

private theorem member_of_colon (k : String) (stop : Nat) {colon : Token}
    {tokens rest : List Token} {fuel : Nat} {node : Node} (hcolon : colon.lexeme = .mark ':')
    (hvalue : value fuel tokens = (node, rest)) :
    ∃ keyNext next resume, member (.ok k) stop (fuel + 1) (colon :: tokens) =
      (.member ⟨.ok k, stop, keyNext⟩ node next resume (moreMembers fuel rest).1,
        (moreMembers fuel rest).2) := by
  refine ⟨resumeInObject (colon :: tokens), (head rest).start, resumeInList rest, ?_⟩
  simp only [member, head, hcolon, List.tail_cons, hvalue]

private theorem takes_member {k : String} {x : Json} {xs : List (String × Json)} (stop : Nat)
    (hx : Takes value x.lexemes fun node => node.Holds x)
    (hxs : Takes moreMembers (Json.lexemesOfMoreMembers xs) fun ms => ms.Hold xs) :
    Takes (member (.ok k) stop) (.mark ':' :: (x.lexemes ++ Json.lexemesOfMoreMembers xs))
      fun ms => ms.Hold ((k, x) :: xs) := by
  refine .of_cons fun fuel colon tokens rest hcolon htokens hfuel => ?_
  obtain ⟨first, second, rfl, hfirst, hsecond⟩ := List.map_eq_append_iff.mp htokens
  rw [List.length_append] at hfuel
  obtain ⟨node, hnode, hholds⟩ := hx fuel first (second ++ rest) hfirst (by omega)
  obtain ⟨ms, hms, hhold⟩ := hxs fuel second rest hsecond (by omega)
  obtain ⟨keyNext, next, resume, hmember⟩ := member_of_colon k stop hcolon hnode
  refine ⟨.member ⟨.ok k, stop, keyNext⟩ node next resume ms, ?_, .member hholds hhold⟩
  rw [List.append_assoc, hmember, hms]

private theorem takes_firstMember {k : String} {ls : List Lexeme} {holds : Members → Prop}
    (h : ∀ stop, Takes (member (.ok k) stop) ls holds) :
    Takes firstMember (.string (.ok k) :: ls) holds := by
  refine .of_cons fun fuel key tokens rest hkey htokens hfuel => ?_
  obtain ⟨ms, hread, hholds⟩ := h key.stop fuel tokens rest htokens (by omega)
  exact ⟨ms, by simp [firstMember, head, hkey, hread], hholds⟩

private theorem takes_moreMembers {k : String} {ls : List Lexeme} {holds : Members → Prop}
    (h : ∀ stop, Takes (member (.ok k) stop) ls holds) :
    Takes moreMembers (.mark ',' :: .string (.ok k) :: ls) holds := by
  refine .of_cons fun fuel comma tokens rest hcomma htokens hfuel => ?_
  obtain ⟨key, tail, rfl, hkey, htail⟩ := List.map_eq_cons_iff.mp htokens
  rw [List.length_cons] at hfuel
  obtain ⟨ms, hread, hholds⟩ := h key.stop fuel tail rest htail (by omega)
  exact ⟨ms, by simp [moreMembers, head, hcomma, hkey, hread], hholds⟩

mutual
private theorem takes_value : ∀ x : Json, Takes value x.lexemes fun node => node.Holds x
  | .null => takes_scalar (x := .null) fun _ _ _ ht => by simp [value, head, ht]
  | .bool b => takes_scalar (x := .bool b) fun _ _ _ ht => by simp [value, head, ht]
  | .number n => takes_scalar (x := .number n) fun _ _ _ ht => by simp [value, head, ht]
  | .string s => takes_scalar (x := .string s) fun _ _ _ ht => by simp [value, head, ht]
  | .array items => takes_list (takes_items items)
  | .object members => takes_object (takes_members members)

private theorem takes_items : ∀ items : List Json,
    Takes firstItem (Json.lexemesOfItems items) fun is => is.Hold items
  | [] => takes_noItem
  | x :: xs => takes_firstItem (takes_value x) (takes_furtherItems xs)

private theorem takes_furtherItems : ∀ items : List Json,
    Takes moreItems (Json.lexemesOfMoreItems items) fun is => is.Hold items
  | [] => takes_noMoreItem
  | x :: xs => takes_moreItems (takes_value x) (takes_furtherItems xs)

private theorem takes_members : ∀ members : List (String × Json),
    Takes firstMember (Json.lexemesOfMembers members) fun ms => ms.Hold members
  | [] => takes_noMember
  | (_, x) :: xs =>
    takes_firstMember fun stop => takes_member stop (takes_value x) (takes_furtherMembers xs)

private theorem takes_furtherMembers : ∀ members : List (String × Json),
    Takes moreMembers (Json.lexemesOfMoreMembers members) fun ms => ms.Hold members
  | [] => takes_noMoreMember
  | (_, x) :: xs =>
    takes_moreMembers fun stop => takes_member stop (takes_value x) (takes_furtherMembers xs)
end

theorem ofText_layout {x : Json} {text : String} (h : Layout x.lexemes text.toList) :
    ∃ node last, ofText text = (node, [last]) ∧ last.lexeme = .finish ∧ node.Holds x := by
  have htokens : (Token.ofText text).map Token.lexeme = x.lexemes ++ [.finish] :=
    Token.scan_layout h
  obtain ⟨tokens, tail, hscan, hlexemes, hfinish⟩ := List.map_eq_append_iff.mp htokens
  obtain ⟨last, rfl, hlast⟩ := List.map_eq_singleton_iff.mp hfinish
  obtain ⟨node, hread, hholds⟩ := takes_value x (2 * (tokens ++ [last]).length + 1) tokens [last]
    hlexemes (by simp; omega)
  refine ⟨node, last, ?_, hlast, hholds⟩
  simp only [ofText, hscan]
  exact hread

/-- Tokens that begin with a value's lexemes are read as a tree that holds the value, and what
follows is left. -/
theorem ofText_lexemes {x : Json} {text : String} {tokens rest : List Token}
    (htext : Token.ofText text = tokens ++ rest) (htokens : tokens.map Token.lexeme = x.lexemes) :
    ∃ node, ofText text = (node, rest) ∧ node.Holds x := by
  simp only [ofText, htext]
  exact takes_value x _ tokens rest htokens (by simp; omega)

def lexemesOfFront : List Json → List Lexeme
  | [] => []
  | x :: xs => x.lexemes ++ xs.flatMap fun y => .mark ',' :: y.lexemes

private theorem moreItems_begin (xs : List Json) : ∀ {fuel : Nat} {tokens rest : List Token},
    tokens.map Token.lexeme = (xs.flatMap fun x => .mark ',' :: x.lexemes) →
      2 * tokens.length ≤ fuel → (moreItems fuel (tokens ++ rest)).1.Begin xs := by
  induction xs with
  | nil => exact fun _ _ => .nil
  | cons x xs ih =>
    intro fuel tokens rest htokens hfuel
    rw [List.flatMap_cons, List.cons_append] at htokens
    obtain ⟨comma, tail, rfl, hcomma, htail⟩ := List.map_eq_cons_iff.mp htokens
    obtain ⟨t, first, second, rfl, hopens, hfirst, hsecond⟩ := exists_split htail
    simp only [List.length_append, List.length_cons] at hfuel
    obtain ⟨fuel, rfl⟩ : ∃ n, fuel = n + 1 := ⟨fuel - 1, by omega⟩
    obtain ⟨node, hnode, hholds⟩ :=
      takes_value x fuel (t :: first) (second ++ rest) hfirst (by simp; omega)
    rw [List.cons_append] at hnode
    rw [List.cons_append, List.append_assoc, List.cons_append,
      moreItems_of_opens hcomma hopens hnode]
    exact .item hholds (ih hsecond (by omega))

private theorem firstItem_begin (xs : List Json) {fuel : Nat} {tokens rest : List Token}
    (htokens : tokens.map Token.lexeme = lexemesOfFront xs) (hfuel : 2 * tokens.length < fuel) :
    (firstItem fuel (tokens ++ rest)).1.Begin xs := by
  cases xs with
  | nil => exact .nil
  | cons x xs =>
    obtain ⟨t, first, second, rfl, hopens, hfirst, hsecond⟩ := exists_split htokens
    simp only [List.length_append, List.length_cons] at hfuel
    obtain ⟨fuel, rfl⟩ : ∃ n, fuel = n + 1 := ⟨fuel - 1, by omega⟩
    obtain ⟨node, hnode, hholds⟩ :=
      takes_value x fuel (t :: first) (second ++ rest) hfirst (by simp; omega)
    rw [List.cons_append] at hnode
    rw [List.append_assoc, List.cons_append, firstItem_of_opens hopens hnode]
    exact .item hholds (moreItems_begin xs hsecond (by omega))

/-- The tree of a text that opens an object with a list behind its first key has the list's items,
whatever follows them. -/
theorem ofText_front {key text : String} {xs : List Json} {tokens rest : List Token}
    (htext : Token.ofText text = tokens ++ rest)
    (htokens : tokens.map Token.lexeme =
      .mark '\x7b' :: .string (.ok key) :: .mark ':' :: .mark '[' :: lexemesOfFront xs) :
    ∃ start stop keyNext listStart items next resume members,
      (ofText text).1 = .object start
        (.member ⟨.ok key, stop, keyNext⟩ (.list listStart items) next resume members) ∧
      items.Begin xs := by
  obtain ⟨brace, _, rfl, hbrace, htokens⟩ := List.map_eq_cons_iff.mp htokens
  obtain ⟨name, _, rfl, hname, htokens⟩ := List.map_eq_cons_iff.mp htokens
  obtain ⟨colon, _, rfl, hcolon, htokens⟩ := List.map_eq_cons_iff.mp htokens
  obtain ⟨bracket, tokens, rfl, hbracket, htokens⟩ := List.map_eq_cons_iff.mp htokens
  simp only [ofText, htext, List.cons_append, List.length_cons, List.length_append]
  generalize hfuel : 2 * (tokens.length + rest.length + 1 + 1 + 1 + 1) = fuel
  obtain ⟨fuel, rfl⟩ : ∃ n, fuel = n + 3 := ⟨fuel - 3, by omega⟩
  have hitems : (firstItem fuel (tokens ++ rest)).1.Begin xs :=
    firstItem_begin xs htokens (by omega)
  have hlist : value (fuel + 1) (bracket :: (tokens ++ rest)) =
      (.list bracket.start (firstItem fuel (tokens ++ rest)).1,
        (firstItem fuel (tokens ++ rest)).2) := by
    simp [value, head, hbracket]
  obtain ⟨keyNext, next, resume, hmember⟩ := member_of_colon key name.stop hcolon hlist
  refine ⟨brace.start, name.stop, keyNext, bracket.start, _, next, resume,
    (moreMembers (fuel + 1) (firstItem fuel (tokens ++ rest)).2).1, ?_, hitems⟩
  simp only [value, head, hbrace, List.tail_cons, firstMember, hname, hmember]

end Node

mutual
/-- A tree gives back the value that it holds, if there is room for its levels. -/
theorem Node.Holds.toJson {node : Node} {x : Json} {room : Nat} :
    node.Holds x → x.depth ≤ room → node.toJson room = .ok x
  | .scalar h, _ => congrArg Except.ok h
  | .list h, hdepth => by
    obtain ⟨room, rfl⟩ : ∃ n, room = n + 1 := ⟨room - 1, by simp [Json.depth] at hdepth; omega⟩
    rw [Node.toJson, h.toJson (Nat.le_of_succ_le_succ hdepth)]
    rfl
  | .object h, hdepth => by
    obtain ⟨room, rfl⟩ : ∃ n, room = n + 1 := ⟨room - 1, by simp [Json.depth] at hdepth; omega⟩
    rw [Node.toJson, h.toJson (Nat.le_of_succ_le_succ hdepth)]
    rfl

theorem Items.Hold.toJson {items : Items} {xs : List Json} {room i : Nat} :
    items.Hold xs → Json.depthOfItems xs ≤ room → items.toJson room i = .ok xs
  | .done, _ => rfl
  | .item h hrest, hdepth => by
    obtain ⟨hfirst, hothers⟩ := Nat.max_le.mp hdepth
    rw [Items.toJson, h.toJson hfirst, hrest.toJson hothers]
    rfl

private theorem Members.Hold.toJson {members : Members} {xs : List (String × Json)} {room : Nat} :
    members.Hold xs → Json.depthOfMembers xs ≤ room → members.toJson room = .ok xs
  | .done, _ => rfl
  | .member h hrest, hdepth => by
    obtain ⟨hfirst, hothers⟩ := Nat.max_le.mp hdepth
    simp only [Members.toJson, h.toJson hfirst, hrest.toJson hothers]
    rfl
end

private theorem Scalar.toJson_injective : Function.Injective Scalar.toJson := by
  intro x y h
  cases x <;> cases y <;> simp_all [toJson]

theorem Node.Holds.scalar_inv (x : Scalar) {node : Node} (h : node.Holds x.toJson) :
    ∃ start stop, node = .scalar start stop x := by
  generalize hv : x.toJson = v at h
  cases h with
  | @scalar start stop y _ hy =>
    obtain rfl := Scalar.toJson_injective (hy.trans hv.symm)
    exact ⟨start, stop, rfl⟩
  | list => cases x <;> cases hv
  | object => cases x <;> cases hv

theorem Node.Holds.array_inv {node : Node} {xs : List Json} (h : node.Holds (.array xs)) :
    ∃ start items, node = .list start items ∧ items.Hold xs := by
  cases h with
  | @scalar _ _ x _ h => cases x <;> cases h
  | list h => exact ⟨_, _, rfl, h⟩

theorem Node.Holds.object_inv {node : Node} {xs : List (String × Json)}
    (h : node.Holds (.object xs)) :
    ∃ start members, node = .object start members ∧ members.Hold xs := by
  cases h with
  | @scalar _ _ x _ h => cases x <;> cases h
  | object h => exact ⟨_, _, rfl, h⟩

end SchemaGuard
