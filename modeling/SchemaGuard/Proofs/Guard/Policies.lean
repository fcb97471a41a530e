import SchemaGuard.Proofs.Guard.Conformance
import SchemaGuard.Proofs.Schema.Pruning

/-!
The two policies compared. Validators decide conformance under their policy, so what the policies
have in common and where they part is read off conformance: they part at undeclared keys alone, and
taking these from a value that the open policy accepts leaves one that both accept.
-/

set_option autoImplicit false
set_option relaxedAutoImplicit false

namespace SchemaGuard.Guards

/-- The validators of a closed reference under the two policies differ in undeclared keys only: the
closed one accepts what the open one accepts and has none, and what the open one accepts can be
pruned to a value that both accept, in one way where, as in each value read from a text, no object
has a key twice. -/
theorem validatorFor_closed_iff_opened (r : ResolvedSchema) {t : TypeRef}
    (ht : r.checkUse t = .ok ()) :
    ∃ closed opened, Guards.validatorFor ⟨r, .closed⟩ t = .ok closed ∧
      Guards.validatorFor ⟨r, .opened⟩ t = .ok opened ∧ ∀ v,
        (closed v = true ↔ opened v = true ∧ ¬ r.schema.Strays t v) ∧
        (opened v = true → ∃ v', Prunes r.schema t v v') ∧
        (opened v = true → ∀ v', Prunes r.schema t v v' → closed v' = true ∧ opened v' = true) ∧
        (v.DistinctKeys → ∀ v₁ v₂,
          Prunes r.schema t v v₁ → Prunes r.schema t v v₂ → v₁ = v₂) := by
  have w : r.schema.WellFormed := wellFormed ⟨r, .closed⟩
  have hclosed := reference_iff_conforms ⟨r, .closed⟩ t
  have hopened := reference_iff_conforms ⟨r, .opened⟩ t
  refine ⟨_, _, (validatorFor_eq_ok_iff ⟨r, .closed⟩).mpr ⟨ht, rfl⟩,
    (validatorFor_eq_ok_iff ⟨r, .opened⟩).mpr ⟨ht, rfl⟩, fun v => ⟨?parts, ?exist, ?both, ?unique⟩⟩
  case parts =>
    rw [hclosed, hopened]
    exact conforms_closed_iff w
  case exist =>
    exact fun haccepts => ((hopened v).mp haccepts).exists_pruned w
  case both =>
    intro haccepts v' hprunes
    have hconforms := (hopened v).mp haccepts
    exact ⟨(hclosed v').mpr (hprunes.conforms w hconforms),
      (hopened v').mpr (hprunes.conforms w hconforms)⟩
  case unique =>
    exact fun hkeys v₁ v₂ h₁ h₂ => h₁.unique w h₂ hkeys

def annotatedTree : Json :=
  .object [("label", .number (.integer 1)), ("note", .null), ("children", .array [])]

theorem validatorFor_closed_iff_opened_annotatedTree :
    ∃ closed opened,
      Guards.validatorFor ⟨trees, .closed⟩ (.generic "Tree" [.primitive .number]) = .ok closed ∧
      Guards.validatorFor ⟨trees, .opened⟩ (.generic "Tree" [.primitive .number]) = .ok opened ∧
      closed annotatedTree = false ∧ opened annotatedTree = true ∧
      ∃ v', Prunes treeSchema (.generic "Tree" [.primitive .number]) annotatedTree v' ∧
        closed v' = true := by
  obtain ⟨closed, opened, hclosed, hopened, h⟩ :=
    validatorFor_closed_iff_opened trees (t := .generic "Tree" [.primitive .number]) (by decide)
  obtain ⟨-, rfl⟩ := (validatorFor_eq_ok_iff ⟨trees, .opened⟩).mp hopened
  obtain ⟨-, rfl⟩ := (validatorFor_eq_ok_iff ⟨trees, .closed⟩).mp hclosed
  have haccepts : reference ⟨trees, .opened⟩ Scope.empty [] (.generic "Tree" [.primitive .number])
      annotatedTree = true := by decide
  obtain ⟨-, hexists, hboth, -⟩ := h annotatedTree
  obtain ⟨v', hprunes⟩ := hexists haccepts
  exact ⟨_, _, hclosed, hopened, by decide, haccepts, v', hprunes, (hboth haccepts v' hprunes).1⟩

end SchemaGuard.Guards
