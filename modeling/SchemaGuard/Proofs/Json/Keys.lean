import SchemaGuard.Document.Reading
import SchemaGuard.Proofs.Json.Depth

/-!
Objects as tables: the keys of an object and what they look up. An object whose keys are distinct is
told by the order of its keys and by what each of them looks up, and the keys in a value that was
read from a text are distinct.
-/

set_option autoImplicit false
set_option relaxedAutoImplicit false

namespace SchemaGuard.Json

variable {key : String} {x : Json} {members members' : List (String × Json)}

theorem mem_keys_of_lookup (h : members.lookup key = some x) : key ∈ members.map Prod.fst :=
  List.mem_map_of_mem (mem_of_lookup h)

theorem exists_lookup (h : key ∈ members.map Prod.fst) : ∃ x, members.lookup key = some x := by
  refine Option.isSome_iff_exists.mp (Option.isSome_iff_ne_none.mpr fun hnone => ?_)
  obtain ⟨m, hm, rfl⟩ := List.mem_map.mp h
  simpa using List.lookup_eq_none_iff.mp hnone m hm

def keyed (keys : List String) (value : String → Json) : List (String × Json) :=
  keys.map fun k => (k, value k)

theorem keys_keyed (keys : List String) (value : String → Json) :
    (keyed keys value).map Prod.fst = keys := by
  rw [keyed, List.map_map]
  exact List.map_id keys

theorem lookup_keyed {keys : List String} (value : String → Json) (h : key ∈ keys) :
    (keyed keys value).lookup key = some (value key) := by
  obtain ⟨y, hy⟩ := exists_lookup ((keys_keyed keys value).symm ▸ h)
  obtain ⟨k, _, heq⟩ := List.mem_map.mp (mem_of_lookup hy)
  obtain ⟨rfl, rfl⟩ := Prod.mk.inj heq
  exact hy

/-- Objects with the same distinct keys in the same order are equal if the keys look up the same. -/
theorem ext_of_keys (hkeys : members.map Prod.fst = members'.map Prod.fst)
    (distinct : (members.map Prod.fst).Nodup)
    (h : ∀ k x x', members.lookup k = some x → members'.lookup k = some x' → x = x') :
    members = members' := by
  induction members generalizing members' with
  | nil => exact (List.map_eq_nil_iff.mp hkeys.symm).symm
  | cons m rest ih =>
    obtain ⟨k, x⟩ := m
    obtain ⟨⟨k', x'⟩, rest', rfl, hkey, hrest⟩ := List.map_eq_cons_iff.mp hkeys.symm
    obtain rfl : k' = k := hkey
    obtain ⟨hnew, hdistinct⟩ := List.nodup_cons.mp distinct
    have hvalue : x = x' := h k' x x' List.lookup_cons_self List.lookup_cons_self
    have later : ∀ {ms : List (String × Json)} {l y z}, k' ∉ ms.map Prod.fst →
        ms.lookup l = some y → ((k', z) :: ms).lookup l = some y := fun hnotin hy => by
      have hne : _ ≠ k' := fun heq => hnotin (heq ▸ mem_keys_of_lookup hy)
      rwa [List.lookup_cons, beq_false_of_ne hne]
    rw [hvalue, ih hrest.symm hdistinct fun l y y' hy hy' =>
      h l y y' (later hnew hy) (later (hrest.symm ▸ hnew) hy')]

/-- No object in the value has a key twice. -/
def DistinctKeys (v : Json) : Prop :=
  ∀ members, (Json.object members).Part v → (members.map Prod.fst).Nodup

theorem DistinctKeys.of_part {v : Json} (h : v.DistinctKeys) (hpart : x.Part v) :
    x.DistinctKeys :=
  fun members hmembers => h members (hmembers.trans hpart)

private theorem DistinctKeys.array {items : List Json} (h : ∀ x ∈ items, x.DistinctKeys) :
    (Json.array items).DistinctKeys := by
  intro members hpart
  cases hpart with
  | item hx hpart => exact h _ hx members hpart

private theorem DistinctKeys.object (distinct : (members.map Prod.fst).Nodup)
    (h : ∀ m ∈ members, m.2.DistinctKeys) : (Json.object members).DistinctKeys := by
  intro inner hpart
  cases hpart with
  | self => exact distinct
  | value hm hpart => exact h _ hm inner hpart

private theorem keys_insertMember (key : String) (x : Json) (members : List (String × Json)) :
    (insertMember key x members).map Prod.fst =
      if key ∈ members.map Prod.fst then members.map Prod.fst
      else members.map Prod.fst ++ [key] := by
  induction members with
  | nil => rfl
  | cons m rest ih =>
    obtain ⟨k, y⟩ := m
    by_cases hkey : k = key
    · simp [insertMember, hkey]
    · simp only [insertMember, if_neg hkey, List.map_cons, ih, List.mem_cons, Ne.symm hkey,
        false_or]
      split <;> rfl

private theorem mem_insertMember {m : String × Json} (h : m ∈ insertMember key x members) :
    m.2 = x ∨ m ∈ members := by
  induction members with
  | nil =>
    obtain rfl := List.mem_singleton.mp h
    exact .inl rfl
  | cons first rest ih =>
    rw [insertMember] at h
    split at h
    · rcases List.mem_cons.mp h with rfl | hrest
      · exact .inl rfl
      · exact .inr (List.mem_cons_of_mem _ hrest)
    · rcases List.mem_cons.mp h with rfl | hrest
      · exact .inr List.mem_cons_self
      · exact (ih hrest).imp_right (List.mem_cons_of_mem _)

private theorem DistinctKeys.insertMember (h : (Json.object members).DistinctKeys)
    (hx : x.DistinctKeys) : (Json.object (insertMember key x members)).DistinctKeys := by
  refine .object ?_ fun m hm => ?_
  · have distinct := h members .self
    rw [keys_insertMember]
    split
    · exact distinct
    · next hnew =>
      rw [List.nodup_append]
      exact ⟨distinct, List.pairwise_singleton _ key, fun a ha b hb heq =>
        hnew (List.mem_singleton.mp hb ▸ heq ▸ ha)⟩
  · rcases mem_insertMember hm with heq | hmem
    · exact heq ▸ hx
    · exact h.of_part (.value hmem .self)

mutual
theorem distinctKeys_settled : ∀ x : Json, x.settled.DistinctKeys
  | .null | .bool _ | .number _ | .string _ => nofun
  | .array items => .array (distinctKeys_settledItems items)
  | .object members => distinctKeys_settledMembers members (.object List.nodup_nil nofun)

private theorem distinctKeys_settledItems :
    ∀ items : List Json, ∀ x ∈ settledItems items, x.DistinctKeys
  | [] => nofun
  | x :: xs => List.forall_mem_cons.mpr ⟨distinctKeys_settled x, distinctKeys_settledItems xs⟩

private theorem distinctKeys_settledMembers : ∀ (members : List (String × Json))
    {done : List (String × Json)}, (Json.object done).DistinctKeys →
      (Json.object (settledMembers members done)).DistinctKeys
  | [], _, h => h
  | (_, x) :: rest, _, h =>
    distinctKeys_settledMembers rest (h.insertMember (distinctKeys_settled x))
end

/-- No object in a value that was read has a key twice. -/
theorem distinctKeys_of_ofText {text : String} {v : Json} (h : Json.ofText text = .ok v) :
    v.DistinctKeys := by
  rw [ofText] at h
  cases hread : (Node.ofText text).1.toJson depthLimit with
  | error failure =>
    simp only [hread] at h
    cases h
  | ok x =>
    simp only [hread, bind, Except.bind] at h
    split at h
    · obtain rfl := Except.ok.inj h
      exact distinctKeys_settled x
    · cases h

end SchemaGuard.Json
