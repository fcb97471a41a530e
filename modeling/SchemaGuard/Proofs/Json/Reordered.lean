import Mathlib.Data.List.Forall2
import Mathlib.Data.List.Nodup
import SchemaGuard.Proofs.Json.Keys

/-!
Values in another order. Two values are reordered if they are equal but for the order in which
their objects list members, at every depth. Where no object has a key twice, objects of reordered
values have the same keys, and each key looks up values that are themselves reordered.
-/

set_option autoImplicit false
set_option relaxedAutoImplicit false

namespace SchemaGuard.Json

/-- The members have one key and related values. -/
inductive SameKey (related : Json → Json → Prop) : String × Json → String × Json → Prop
  | intro {key : String} {x x' : Json} (values : related x x') :
    SameKey related (key, x) (key, x')

/-- The values are equal but for the order of members: members are moved about inside their object,
and the value of each of them is reordered in the same way. -/
inductive Reordered : Json → Json → Prop
  | null : Reordered .null .null
  | bool (b : Bool) : Reordered (.bool b) (.bool b)
  | number (n : Number) : Reordered (.number n) (.number n)
  | string (text : String) : Reordered (.string text) (.string text)
  | array {items items' : List Json} (each : List.Forall₂ Reordered items items') :
    Reordered (.array items) (.array items')
  | object {members moved members' : List (String × Json)} (order : members.Perm moved)
    (each : List.Forall₂ (SameKey Reordered) moved members') :
    Reordered (.object members) (.object members')

mutual
theorem Reordered.refl : ∀ v : Json, v.Reordered v
  | .null => .null
  | .bool b => .bool b
  | .number n => .number n
  | .string text => .string text
  | .array items => .array (reordered_items items)
  | .object members => .object (List.Perm.refl members) (reordered_members members)

private theorem reordered_items : ∀ items : List Json, List.Forall₂ Reordered items items
  | [] => .nil
  | x :: xs => .cons (Reordered.refl x) (reordered_items xs)

theorem reordered_members :
    ∀ members : List (String × Json), List.Forall₂ (SameKey Reordered) members members
  | [] => .nil
  | (_, x) :: rest => .cons (.intro (Reordered.refl x)) (reordered_members rest)
end

theorem reordered_of_perm {members members' : List (String × Json)} (h : members.Perm members') :
    (Json.object members).Reordered (.object members') :=
  .object h (reordered_members members')

variable {members moved members' : List (String × Json)} {key : String} {x : Json}

private theorem lookup_eq_some_iff (distinct : (members.map Prod.fst).Nodup) :
    members.lookup key = some x ↔ (key, x) ∈ members := by
  constructor
  · exact mem_of_lookup
  · intro hmem
    obtain ⟨y, hy⟩ := exists_lookup (List.mem_map_of_mem hmem)
    have heq : (key, y) = (key, x) :=
      List.inj_on_of_nodup_map distinct (mem_of_lookup hy) hmem rfl
    rw [hy, (Prod.mk.inj heq).2]

private theorem lookup_of_perm (distinct : (members.map Prod.fst).Nodup) (h : members.Perm moved)
    (key : String) : members.lookup key = moved.lookup key := by
  have distinct' : (moved.map Prod.fst).Nodup := (h.map _).nodup_iff.mp distinct
  ext x
  rw [lookup_eq_some_iff distinct, lookup_eq_some_iff distinct', h.mem_iff]

section

variable {related : Json → Json → Prop}

private theorem keys_of_sameKey (h : List.Forall₂ (SameKey related) members members') :
    members.map Prod.fst = members'.map Prod.fst := by
  induction h with
  | nil => rfl
  | cons hm _ ih =>
    obtain ⟨_⟩ := hm
    rw [List.map_cons, List.map_cons, ih]

private theorem lookup_of_sameKey (h : List.Forall₂ (SameKey related) members members')
    (key : String) :
    (members.lookup key = none ∧ members'.lookup key = none) ∨
      ∃ x x', members.lookup key = some x ∧ members'.lookup key = some x' ∧ related x x' := by
  induction h with
  | nil => exact .inl ⟨rfl, rfl⟩
  | cons hm _ ih =>
    obtain ⟨hvalues⟩ := hm
    rw [List.lookup_cons, List.lookup_cons]
    split
    · exact .inr ⟨_, _, rfl, rfl, hvalues⟩
    · exact ih

end

namespace Reordered

theorem keys (h : (Json.object members).Reordered (.object members')) :
    (members.map Prod.fst).Perm (members'.map Prod.fst) := by
  cases h with
  | object order each => exact keys_of_sameKey each ▸ order.map Prod.fst

/-- A key is in neither object, or looks up values that are reordered. -/
theorem lookup (h : (Json.object members).Reordered (.object members'))
    (distinct : (members.map Prod.fst).Nodup) (key : String) :
    (members.lookup key = none ∧ members'.lookup key = none) ∨
      ∃ x x', members.lookup key = some x ∧ members'.lookup key = some x' ∧ x.Reordered x' := by
  cases h with
  | object order each =>
    rw [lookup_of_perm distinct order]
    exact lookup_of_sameKey each key

end Reordered

end SchemaGuard.Json
