import SchemaGuard.Proofs.Resolution.WellFormed

/-!
What resolution keeps. The definitions are entered in a table by their names, which would lose one
of two definitions with the same name; that the names differ is what resolution has found out
before, so every definition stays in its place and is what its name looks up. Resolving once more
changes nothing.
-/

set_option autoImplicit false
set_option relaxedAutoImplicit false

namespace SchemaGuard

/-- A schema resolves as itself or not at all. -/
theorem Schema.resolve_eq_ok_iff {s : Schema} {r : ResolvedSchema} :
    s.resolve = .ok r ↔ r.schema = s := by
  unfold resolve
  constructor
  · intro h
    split at h
    · next herrors =>
      obtain rfl := Except.ok.inj h
      exact congrArg Schema.mk (values_table herrors)
    · cases h
  · rintro rfl
    rw [dif_pos r.noErrors]
    obtain ⟨s, herrors⟩ := r
    simp only [values_table herrors]

namespace ResolvedSchema

variable {r : ResolvedSchema} {name : String} {d : Definition}

private theorem get?_eq_find? (r : ResolvedSchema) (name : String) :
    r.get? name = r.schema.find? name :=
  Table.get?_ofDefinitions r.wellFormed.types_nodup name

private theorem get?_eq_some_iff : r.get? name = some d ↔ d ∈ r.types ∧ d.name = name := by
  rw [get?_eq_find?]
  exact Schema.find?_eq_some_iff r.wellFormed.types_nodup

private theorem get?_eq_none_iff : r.get? name = none ↔ ∀ d ∈ r.types, d.name ≠ name := by
  rw [get?_eq_find?, Schema.find?, List.find?_eq_none]
  simp [types]

private theorem intoSchema_eq (r : ResolvedSchema) : r.intoSchema = r.schema := by
  rw [intoSchema, Schema.values_table r.noErrors]

end ResolvedSchema

/-- A schema that resolves is what was resolved: taken back as a schema it is the same, its
definitions come in the same order, each once, and each is what its name looks up. Resolved again,
as a schema or as it is, it does not change. -/
theorem resolve_keeps_schema {s : Schema} {r : ResolvedSchema} (h : s.resolve = .ok r) :
    r.toSchema = s ∧ r.intoSchema = s ∧ r.types = s.types ∧
      (s.types.map Definition.name).Nodup ∧
      (∀ name d, r.get? name = some d ↔ d ∈ s.types ∧ d.name = name) ∧
      (∀ name, r.get? name = none ↔ ∀ d ∈ s.types, d.name ≠ name) ∧
      r.toSchema.resolve = .ok r ∧ r.resolve = .ok r := by
  obtain rfl := Schema.resolve_eq_ok_iff.mp h
  exact ⟨rfl, r.intoSchema_eq, rfl, r.wellFormed.types_nodup,
    fun name d => ResolvedSchema.get?_eq_some_iff,
    fun name => ResolvedSchema.get?_eq_none_iff, h, rfl⟩

def messages : Schema where
  types := [
    .alias ⟨"Inbox", [], .sequence (.generic "Signed" [.named "Message"])⟩,
    .struct ⟨"Signed", ["T"], [⟨"content", .parameter "T", true⟩,
      ⟨"key", .primitive .bytes, true⟩]⟩,
    .union ⟨"Message", [⟨"text", [⟨"line", .primitive .string, true⟩]⟩,
      ⟨"forward", [⟨"of", .named "Inbox", true⟩]⟩]⟩]

def mailbox : ResolvedSchema := ⟨messages, by decide⟩

theorem resolve_keeps_schema_messages :
    ∃ r, messages.resolve = .ok r ∧ r.toSchema = messages ∧ r.intoSchema = messages ∧
      r.get? "Inbox" = messages.types.head? ∧ r.get? "Outbox" = none ∧
      r.toSchema.resolve = .ok r := by
  have h : messages.resolve = .ok ⟨messages, by decide⟩ := Schema.resolve_eq_ok_iff.mpr rfl
  obtain ⟨hto, hinto, _, _, hsome, hnone, hagain, _⟩ := resolve_keeps_schema h
  exact ⟨_, h, hto, hinto, (hsome "Inbox" _).mpr (by decide), (hnone "Outbox").mpr (by decide),
    hagain⟩

end SchemaGuard
