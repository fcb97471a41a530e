import SchemaGuard.Json.Value

/-!
The parts of a value: what can be reached from it through items of arrays and values of members.
They are nested less deep than the value, but for the value itself.
-/

set_option autoImplicit false
set_option relaxedAutoImplicit false

namespace SchemaGuard.Json

variable {x : Json} {key : String}

private theorem depth_le_of_mem_items {items : List Json} (h : x ∈ items) :
    x.depth ≤ depthOfItems items := by
  induction h with
  | head rest => exact Nat.le_max_left ..
  | tail _ _ ih => exact Nat.le_trans ih (Nat.le_max_right ..)

private theorem depth_le_of_mem_members {members : List (String × Json)} (h : (key, x) ∈ members) :
    x.depth ≤ depthOfMembers members := by
  induction members with
  | nil => cases h
  | cons m rest ih =>
    rcases List.mem_cons.mp h with rfl | hrest
    · exact Nat.le_max_left ..
    · exact Nat.le_trans (ih hrest) (Nat.le_max_right ..)

theorem depth_lt_of_mem_items {items : List Json} (h : x ∈ items) :
    x.depth < (Json.array items).depth :=
  Nat.lt_succ_of_le (depth_le_of_mem_items h)

theorem depth_lt_of_mem_members {members : List (String × Json)} (h : (key, x) ∈ members) :
    x.depth < (Json.object members).depth :=
  Nat.lt_succ_of_le (depth_le_of_mem_members h)

/-- What a key looks up is a member. -/
theorem mem_of_lookup {members : List (String × Json)} (h : members.lookup key = some x) :
    (key, x) ∈ members := by
  induction members with
  | nil => cases h
  | cons m rest ih =>
    obtain ⟨k, y⟩ := m
    rw [List.lookup_cons] at h
    split at h
    · next heq =>
      obtain rfl : key = k := by simpa using heq
      obtain rfl : y = x := by simpa using h
      exact List.mem_cons_self
    · exact List.mem_cons_of_mem _ (ih h)

/-- The value itself, or a part of one of its items or of the value of one of its members. -/
inductive Part : Json → Json → Prop
  | self {v : Json} : Part v v
  | item {v y : Json} {items : List Json} : y ∈ items → Part v y → Part v (.array items)
  | value {v : Json} {m : String × Json} {members : List (String × Json)} :
    m ∈ members → Part v m.2 → Part v (.object members)

theorem Part.trans {u v w : Json} (h : u.Part v) (h' : v.Part w) : u.Part w := by
  induction h' with
  | self => exact h
  | item hy _ ih => exact .item hy ih
  | value hm _ ih => exact .value hm ih

theorem part_of_mem_items {items : List Json} (h : x ∈ items) : x.Part (.array items) :=
  .item h .self

theorem part_of_mem_members {members : List (String × Json)} (h : (key, x) ∈ members) :
    x.Part (.object members) :=
  .value h .self

theorem part_of_lookup {members : List (String × Json)} (h : members.lookup key = some x) :
    x.Part (.object members) :=
  part_of_mem_members (mem_of_lookup h)

theorem depth_lt_of_lookup {members : List (String × Json)} (h : members.lookup key = some x) :
    x.depth < (Json.object members).depth :=
  depth_lt_of_mem_members (mem_of_lookup h)

end SchemaGuard.Json
