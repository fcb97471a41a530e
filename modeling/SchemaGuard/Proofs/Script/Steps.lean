import SchemaGuard.Guard.Emitter
import SchemaGuard.Proofs.Schema.References

/-!
Induction over the steps of emission. The emission of any body is put together from counting a
variable and from instantiating a type, whatever the references in it look like. So what these two
steps do, and two steps in a row if each of them does it, is done by emission as a whole.
-/

set_option autoImplicit false
set_option relaxedAutoImplicit false

namespace SchemaGuard.Script

/-- A property of steps that the elementary ones have and that steps in a row pass on. -/
structure Inherited (P : ∀ {α : Type}, Emit α → Prop) : Prop where
  pure : ∀ {α : Type} (a : α), P (Pure.pure a)
  bind : ∀ {α β : Type} {step : Emit α} {next : α → Emit β}, P step → (∀ a, P (next a)) →
    P (step >>= next)
  freshVariable : P freshVariable
  instantiate : ∀ options inst es, P (instantiate options inst es)

namespace Inherited

variable {P : ∀ {α : Type}, Emit α → Prop} (h : Inherited P)

include h

private theorem giving {α β : Type} {step : Emit α} (f : α → β) (hstep : P step) :
    P (step >>= fun a => Pure.pure (f a)) := h.bind hstep fun a => h.pure (f a)

private theorem onSubject {t : TypeRef} {condition : Expr → Emit Expr}
    (hcondition : ∀ e, P (condition e))
    (subject : Option Expr) : P (onSubject t subject condition) := by
  cases subject with
  | some e => exact hcondition e
  | none => exact h.bind h.freshVariable fun x => h.giving _ (hcondition (.name x))

variable (c : Context)

private theorem arguments {ts : List TypeRef} (hts : ∀ t ∈ ts, P (reference c t none)) :
    P (arguments c ts) := by
  induction ts with
  | nil => exact h.pure _
  | cons t ts ih =>
    obtain ⟨ht, hts⟩ := List.forall_mem_cons.mp hts
    rw [Script.arguments]
    exact h.bind ht fun _ => h.giving _ (ih hts)

private theorem tuple {e : Expr} {ts : List TypeRef}
    (hts : ∀ t ∈ ts, ∀ subject, P (reference c t (some subject))) (i : Nat) (found : Expr) :
    P (tuple c e i found ts) := by
  induction ts generalizing i found with
  | nil => exact h.pure _
  | cons t ts ih =>
    obtain ⟨ht, hts⟩ := List.forall_mem_cons.mp hts
    rw [Script.tuple]
    exact h.bind (ht _) fun _ => ih hts _ _

private theorem reference (t : TypeRef) (subject : Option Expr) : P (reference c t subject) := by
  induction t generalizing subject with
  | primitive p => cases subject <;> cases p <;> exact h.pure _
  | named name => exact h.pure _
  | generic name args ih =>
    cases args with
    | nil => exact h.pure _
    | cons t ts =>
      obtain ⟨ht, hts⟩ := List.forall_mem_cons.mp fun u hu => ih u hu none
      rw [Script.reference]
      split
      · exact h.pure _
      · exact h.bind ht fun _ => h.bind (h.arguments c hts) fun _ =>
          h.giving _ (h.instantiate c.options _ _)
  | sequence inner ih =>
    rw [Script.reference]
    exact h.onSubject (fun _ => h.bind h.freshVariable fun x => h.giving _ (ih _)) subject
  | parameter name => exact h.pure _
  | map inner ih =>
    rw [Script.reference]
    exact h.onSubject (fun _ => h.bind h.freshVariable fun x => h.giving _ (ih _)) subject
  | tuple elements ih =>
    rw [Script.reference]
    exact h.onSubject (fun _ => h.tuple c (fun t ht subject => ih t ht (some subject)) 0 _) subject
  | nullable inner ih =>
    rw [Script.reference]
    exact h.onSubject (fun _ => h.giving _ (ih _)) subject

private theorem fieldChecks (e : Expr) (fields : List Field) : P (fieldChecks c e fields) := by
  induction fields with
  | nil => exact h.pure _
  | cons f rest ih =>
    rw [Script.fieldChecks]
    exact h.bind (h.reference c f.type _) fun _ => h.giving _ ih

private theorem caseBodies (variants : List Variant) : P (caseBodies c variants) := by
  induction variants with
  | nil => exact h.pure _
  | cons v rest ih =>
    rw [Script.caseBodies]
    exact h.bind (h.giving _ (h.fieldChecks c _ v.fields)) fun _ => h.giving _ ih

theorem definitionBody (d : Definition) : P (definitionBody c d) := by
  cases d with
  | struct d => exact h.giving _ (h.fieldChecks c _ d.fields)
  | union d => exact h.giving _ (h.caseBodies c d.variants)
  | enum d => exact h.pure _
  | «alias» d => exact h.giving _ (h.reference c d.target _)

end Inherited

end SchemaGuard.Script
