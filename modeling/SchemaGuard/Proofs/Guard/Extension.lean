import SchemaGuard.Proofs.Guard.Conformance
import SchemaGuard.Proofs.Schema.Transfer

/-!
Verdicts depend neither on the order of declarations nor on unrelated types. What a reference means
is looked up by name, so a schema that holds all definitions of another one gives the references
that are legal there the same meaning, and conformance, which asks for nothing but meanings, is the
same in both. Nor does resolution depend on the order of the definitions.
-/

set_option autoImplicit false
set_option relaxedAutoImplicit false

namespace SchemaGuard

namespace Schema

variable {s s' : Schema}

private theorem find?_of_perm (distinct : (s.types.map Definition.name).Nodup)
    (h : s.types.Perm s'.types) (name : String) : s.find? name = s'.find? name := by
  have distinct' : (s'.types.map Definition.name).Nodup := (h.map _).nodup_iff.mp distinct
  ext d
  rw [find?_eq_some_iff distinct, find?_eq_some_iff distinct', h.mem_iff]

private theorem WellFormed.of_perm (w : s.WellFormed) (h : s.types.Perm s'.types) :
    s'.WellFormed where
  typeNames d hd := w.typeNames d (h.mem_iff.mpr hd)
  paramNames d hd := w.paramNames d (h.mem_iff.mpr hd)
  types_nodup := (h.map _).nodup_iff.mp w.types_nodup
  params_nodup d hd := w.params_nodup d (h.mem_iff.mpr hd)
  fields_nodup d hd := w.fields_nodup d (h.mem_iff.mpr hd)
  tags_nodup u hu := w.tags_nodup u (h.mem_iff.mpr hu)
  members_nodup e he := w.members_nodup e (h.mem_iff.mpr he)
  references d hd t ht :=
    TypeRef.IsLegal.of_subset h.subset (w.references d (h.mem_iff.mpr hd) t ht)
  aliases a ha := by
    have halias : ∀ name, s.alias? name = s'.alias? name := fun name => by
      rw [alias?, alias?, find?_of_perm w.types_nodup h]
    rw [isCyclic, ← expandsTo_congr halias]
    exact w.aliases a (h.mem_iff.mpr ha)

end Schema

namespace Guards

/-- A schema that holds all definitions of another one, in any order and among any others, accepts
all uses that the other accepts, and gives them validators with the same answers. A schema resolves
in every order of its definitions or in none. -/
theorem validatorFor_eq_of_subset :
    (∀ r r' : ResolvedSchema, r.schema.types ⊆ r'.schema.types →
      ∀ t, r.checkUse t = .ok () → r'.checkUse t = .ok () ∧ ∀ shape, ∃ w w',
        validatorFor ⟨r, shape⟩ t = .ok w ∧ validatorFor ⟨r', shape⟩ t = .ok w' ∧
          ∀ v, w v = w' v) ∧
    ∀ s s' : Schema, s.types.Perm s'.types →
      ((∃ r, s.resolve = .ok r) ↔ ∃ r, s'.resolve = .ok r) := by
  constructor
  · intro r r' hsubset t ht
    have hlegal := ResolvedSchema.checkUse_eq_ok_iff.mp ht
    have ht' : r'.checkUse t = .ok () :=
      ResolvedSchema.checkUse_eq_ok_iff.mpr (hlegal.of_subset hsubset)
    refine ⟨ht', fun shape => ⟨_, _, (validatorFor_eq_ok_iff _).mpr ⟨ht, rfl⟩,
      (validatorFor_eq_ok_iff _).mpr ⟨ht', rfl⟩, fun v => ?_⟩⟩
    rw [Bool.eq_iff_iff, reference_iff_conforms, reference_iff_conforms]
    constructor
    · intro hv
      exact hv.carry (Schema.carries_of_subset r.wellFormed r'.wellFormed hsubset) id trivial
    · intro hv
      exact hv.carry (Schema.carries_legal_of_subset r.wellFormed r'.wellFormed hsubset) id hlegal
  · intro s s' hperm
    rw [Schema.exists_resolve_iff, Schema.exists_resolve_iff]
    exact ⟨fun w => w.of_perm hperm, fun w => w.of_perm hperm.symm⟩

def grove : ResolvedSchema :=
  ⟨⟨.enum ⟨"Season", ["dry", "wet"]⟩ :: treeSchema.types.reverse⟩, by decide⟩

theorem validatorFor_eq_of_subset_grove :
    (∃ w w', validatorFor ⟨trees, .closed⟩ (.generic "Forest" [.primitive .number]) = .ok w ∧
      validatorFor ⟨grove, .closed⟩ (.generic "Forest" [.primitive .number]) = .ok w' ∧
      ∀ v, w v = w' v) ∧ ∃ r, Schema.resolve ⟨treeSchema.types.reverse⟩ = .ok r := by
  constructor
  · exact (validatorFor_eq_of_subset.1 trees grove (by decide)
      (.generic "Forest" [.primitive .number]) (by decide)).2 .closed
  · exact (validatorFor_eq_of_subset.2 treeSchema ⟨treeSchema.types.reverse⟩
      (List.reverse_perm _).symm).mp (Schema.exists_resolve_iff.mpr trees.wellFormed)

end Guards

end SchemaGuard
