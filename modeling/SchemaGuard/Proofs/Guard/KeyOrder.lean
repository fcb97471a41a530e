import SchemaGuard.Proofs.Guard.Parametricity
import SchemaGuard.Proofs.Json.Reordered

/-!
Verdicts do not depend on the order of keys. A guard asks of an object which keys it has, what a key
looks up and whether all of its values are accepted, and none of these changes when members are
moved about. So two runs of a guard, on a value and on the same value in another order, go along
side by side and end with one verdict.
-/

set_option autoImplicit false
set_option relaxedAutoImplicit false

namespace SchemaGuard

private theorem Primitive.accepts_of_reordered {p : Primitive} {v v' : Json} (h : v.Reordered v') :
    p.accepts v = p.accepts v' := by
  cases h with
  | array each =>
    cases p with
    | bytes =>
      simp only [accepts]
      induction each with
      | nil => rfl
      | cons hx _ ih =>
        rw [List.all_cons, List.all_cons, ih]
        cases hx <;> rfl
    | _ => rfl
  | object order each => cases p <;> rfl
  | _ => rfl

private theorem all_of_reordered {check : Validator} {items items' : List Json}
    (each : List.Forall₂ Json.Reordered items items')
    (h : ∀ x ∈ items, ∀ x', x.Reordered x' → check x = check x') :
    items.all check = items'.all check := by
  induction each with
  | nil => rfl
  | cons hx _ ih =>
    obtain ⟨hfirst, hrest⟩ := List.forall_mem_cons.mp h
    rw [List.all_cons, List.all_cons, hfirst _ hx, ih hrest]

private theorem all_zip_of_reordered {check : TypeRef → Validator} {elements : List TypeRef}
    {items items' : List Json} (each : List.Forall₂ Json.Reordered items items')
    (h : ∀ t ∈ elements, ∀ x ∈ items, ∀ x', x.Reordered x' → check t x = check t x') :
    ((elements.zip items).all fun p => check p.1 p.2)
      = (elements.zip items').all fun p => check p.1 p.2 := by
  induction each generalizing elements with
  | nil => rfl
  | cons hx _ ih =>
    cases elements with
    | nil => rfl
    | cons t ts =>
      obtain ⟨hfirst, hrest⟩ := List.forall_mem_cons.mp h
      rw [List.zip_cons_cons, List.zip_cons_cons, List.all_cons, List.all_cons,
        hfirst _ List.mem_cons_self _ hx,
        ih fun t ht x hx => hrest t ht x (List.mem_cons_of_mem _ hx)]

private theorem all_values_of_reordered {check : Validator}
    {members members' : List (String × Json)}
    (hreordered : (Json.object members).Reordered (.object members'))
    (h : ∀ m ∈ members, ∀ x', m.2.Reordered x' → check m.2 = check x') :
    (members.all fun m => check m.2) = members'.all fun m => check m.2 := by
  cases hreordered with
  | object order each =>
    rw [order.all_eq]
    replace h := fun m hm => h m (order.mem_iff.mpr hm)
    clear order
    induction each with
    | nil => rfl
    | cons hm _ ih =>
      obtain ⟨hvalues⟩ := hm
      obtain ⟨hfirst, hrest⟩ := List.forall_mem_cons.mp h
      rw [List.all_cons, List.all_cons, hfirst _ hvalues, ih hrest]

private theorem all_keys_of_reordered {members members' : List (String × Json)}
    (h : (Json.object members).Reordered (.object members')) (test : String → Bool) :
    (members.all fun m => test m.1) = members'.all fun m => test m.1 := by
  have hkeys := h.keys.all_eq (f := test)
  rwa [List.all_map, List.all_map] at hkeys

private theorem Field.allAccept_of_reordered {shape : ShapePolicy} {check : TypeRef → Validator}
    {fields : List Field} {members members' : List (String × Json)}
    (hreordered : (Json.object members).Reordered (.object members'))
    (distinct : (members.map Prod.fst).Nodup)
    (h : ∀ f ∈ fields, ∀ x x', members.lookup f.name = some x → x.Reordered x' →
      check f.type x = check f.type x') :
    Field.allAccept shape check fields members = Field.allAccept shape check fields members' := by
  have hclosed := all_keys_of_reordered hreordered fun k => fields.any fun f => f.name == k
  rw [allAccept, allAccept, hclosed]
  congr 1
  refine all_congr_of_mem fun f hf => ?_
  obtain ⟨hnone, hnone'⟩ | ⟨x, x', hx, hx', hvalues⟩ := hreordered.lookup distinct f.name
  · rw [hnone, hnone']
  · rw [hx, hx']
    exact h f hf x x' hx hvalues

private theorem Union.accepts_of_reordered {shape : ShapePolicy} {check : TypeRef → Validator}
    {d : Union}
    {members members' : List (String × Json)} (hkeys : (Json.object members).DistinctKeys)
    (hreordered : (Json.object members).Reordered (.object members'))
    (h : ∀ t x x', (Definition.union d).Inspects (.object members) t x → x.Reordered x' →
      check t x = check t x') :
    d.accepts shape check (.object members) = d.accepts shape check (.object members') := by
  have distinct := hkeys members .self
  have hclosed := all_keys_of_reordered hreordered fun k => k == tagKey || k == payloadKey
  simp only [accepts]
  rw [hclosed]
  congr 1
  obtain ⟨hnone, hnone'⟩ | ⟨x, x', hx, hx', htag⟩ := hreordered.lookup distinct tagKey
  · rw [hnone, hnone']
  rw [hx, hx']
  cases htag with
  | string tag =>
    cases hvariant : d.variant? tag with
    | none => simp only [hvariant]
    | some variant =>
      simp only [hvariant]
      obtain ⟨hnone, hnone'⟩ | ⟨y, y', hy, hy', hpayload⟩ := hreordered.lookup distinct payloadKey
      · rw [hnone, hnone']
      rw [hy, hy']
      cases hpayload with
      | object order each =>
        exact Field.allAccept_of_reordered (.object order each) (hkeys _ (Json.part_of_lookup hy))
          fun f hf z z' hz => h f.type z z' (.payload hx hvariant hy hf hz)
      | _ => rfl
  | _ => rfl

private theorem Definition.accepts_of_reordered {shape : ShapePolicy} {check : TypeRef → Validator}
    {d : Definition} {v v' : Json} (hkeys : v.DistinctKeys) (hreordered : v.Reordered v')
    (h : ∀ t x x', d.Inspects v t x → x.Reordered x' → check t x = check t x') :
    d.accepts shape check v = d.accepts shape check v' := by
  cases d with
  | struct d =>
    cases hreordered with
    | object order each =>
      exact Field.allAccept_of_reordered (.object order each) (hkeys _ .self)
        fun f hf x x' hx => h f.type x x' (.field hf hx)
    | _ => rfl
  | union d =>
    cases hreordered with
    | object order each => exact Union.accepts_of_reordered hkeys (.object order each) h
    | _ => rfl
  | enum d => cases hreordered <;> rfl
  | «alias» a => exact h a.target v v' .target hreordered

namespace Guards

variable (g : Guards)

private def IgnoresOrder (depth : Nat) (check : Validator) : Prop :=
  ∀ v v' : Json, v.depth < depth → v.DistinctKeys → v.Reordered v' → check v = check v'

private theorem guarded_ignoresOrder :
    Guarded g.schema (fun _ => g.reference) (fun _ => g.applied) IgnoresOrder where
  zero := fun _ _ hv => absurd hv (Nat.not_lt_zero _)
  weaken h := fun v v' hv => h v v' (Nat.lt_succ_of_lt hv)
  primitive := fun _ _ _ _ hreordered => Primitive.accepts_of_reordered hreordered
  parameter {n scope env name depth} h v v' hv hkeys hreordered := by
    rw [reference_parameter]
    cases hi : scope.index? name with
    | none => rfl
    | some i =>
      cases hx : env[i]? with
      | none => simp [hx]
      | some check => simpa [hx] using h i check hi hx v v' hv hkeys hreordered
  named {n scope env name depth} h v v' hv hkeys hreordered := by
    rw [reference_named]
    cases hd : g.schema.monomorphic? name with
    | none => rfl
    | some d => exact h d hd v v' hv hkeys hreordered
  generic {n scope env name args depth} h v v' hv hkeys hreordered := by
    rw [reference_generic]
    cases hd : g.schema.generic? name args with
    | none => rfl
    | some d => exact h d hd v v' hv hkeys hreordered
  sequence {n scope env inner depth} h v v' hv hkeys hreordered := by
    rw [reference_sequence, reference_sequence]
    cases hreordered with
    | array each =>
      refine all_of_reordered each fun x hx x' => h x x' ?_ ?_
      · have := Json.depth_lt_of_mem_items hx
        omega
      · exact hkeys.of_part (Json.part_of_mem_items hx)
    | _ => rfl
  map {n scope env inner depth} h v v' hv hkeys hreordered := by
    rw [reference_map, reference_map]
    cases hreordered with
    | object order each =>
      refine all_values_of_reordered (.object order each) fun m hm x' => h m.2 x' ?_ ?_
      · have := Json.depth_lt_of_mem_members hm
        omega
      · exact hkeys.of_part (Json.part_of_mem_members hm)
    | _ => rfl
  tuple {n scope env elements depth} h v v' hv hkeys hreordered := by
    rw [reference_tuple, reference_tuple]
    cases hreordered with
    | array each =>
      simp only
      rw [each.length_eq]
      congr 1
      refine all_zip_of_reordered each fun t ht x hx x' => h t ht x x' ?_ ?_
      · have := Json.depth_lt_of_mem_items hx
        omega
      · exact hkeys.of_part (Json.part_of_mem_items hx)
    | _ => rfl
  nullable {n scope env inner depth} h v v' hv hkeys hreordered := by
    rw [reference_nullable, reference_nullable]
    cases hreordered with
    | null => rfl
    | bool b => exact h _ _ hv hkeys (.bool b)
    | number m => exact h _ _ hv hkeys (.number m)
    | string text => exact h _ _ hv hkeys (.string text)
    | array each => exact h _ _ hv hkeys (.array each)
    | object order each => exact h _ _ hv hkeys (.object order each)
  body {n d env depth} hfind hlength hd h v v' hv hkeys hreordered := by
    rw [g.applied_eq env hfind hlength, g.applied_eq env hfind hlength]
    refine Definition.accepts_of_reordered hkeys hreordered fun t x x' hx =>
      h t hx.mem_references x x' ?_ (hkeys.of_part hx.part)
    have := hx.depth_lt hd
    omega
  target {n a env depth} hfind hlength h v v' hv hkeys hreordered := by
    rw [g.applied_alias env hfind hlength, g.applied_alias env hfind hlength]
    exact h v v' hv hkeys hreordered

/-- The validator of a closed reference gives a value and the same value in another order one
answer. No object in the value has a key twice, which holds of each value that was read. -/
theorem validatorFor_eq_of_reordered {t : TypeRef} (ht : g.resolved.checkUse t = .ok ()) :
    ∃ w, g.validatorFor t = .ok w ∧
      ∀ v v' : Json, v.DistinctKeys → v.Reordered v' → w v = w v' := by
  refine ⟨_, g.validatorFor_eq_ok_iff.mpr ⟨ht, rfl⟩, fun v v' hkeys hreordered => ?_⟩
  have hignores : IgnoresOrder (v.depth + 1) (g.reference Scope.empty [] t) :=
    g.guarded_ignoresOrder.fine_reference g.acyclic (Nat.le_refl _) (by simp) t
  exact hignores v v' (Nat.lt_succ_self v.depth) hkeys hreordered

def sapling : Json :=
  .object [("label", .number (.integer 1)), ("children", .array [
    .object [("label", .number (.integer 2)), ("children", .array [])]])]

def movedSapling : Json :=
  .object [("children", .array [
    .object [("children", .array []), ("label", .number (.integer 2))]]),
    ("label", .number (.integer 1))]

theorem validatorFor_eq_of_reordered_sapling :
    sapling.DistinctKeys ∧ sapling.Reordered movedSapling ∧
      ∃ w, validatorFor ⟨trees, .closed⟩ (.generic "Tree" [.primitive .number]) = .ok w ∧
        w sapling = w movedSapling := by
  have hkeys : sapling.DistinctKeys := Json.distinctKeys_settled sapling
  have hchild : Json.Reordered
      (.object [("label", .number (.integer 2)), ("children", .array [])])
      (.object [("children", .array []), ("label", .number (.integer 2))]) :=
    Json.reordered_of_perm (List.Perm.swap _ _ _)
  have hreordered : sapling.Reordered movedSapling := by
    refine .object (List.Perm.swap _ _ _) (.cons (.intro (.array (.cons hchild .nil))) ?_)
    exact .cons (.intro (.number _)) .nil
  obtain ⟨w, hw, h⟩ := validatorFor_eq_of_reordered ⟨trees, .closed⟩
    (t := .generic "Tree" [.primitive .number]) (by decide)
  exact ⟨hkeys, hreordered, w, hw, h sapling movedSapling hkeys hreordered⟩

end Guards

end SchemaGuard
