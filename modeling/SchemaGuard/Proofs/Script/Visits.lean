import SchemaGuard.Proofs.Script.Repeats

/-!
The references that are emitted in a body, and when. Each is emitted from the state that is left by
what stands before it, an argument before what is applied to it; and what is stored by then is still
stored in the end.
-/

set_option autoImplicit false
set_option relaxedAutoImplicit false

namespace SchemaGuard.Script

/-- A reference that is emitted from a state, as the condition on a subject or as a checker. -/
structure Point where
  type : TypeRef
  subject : Option Expr
  state : Emission

/-- What the parts of a container are emitted for: its subject, or without one the variable of a
function. -/
def Point.inside (p : Point) : Expr × Emission :=
  match p.subject with
  | some e => (e, p.state)
  | none =>
    let r := freshVariable p.state
    (.name r.1, r.2)

/-- The references that are emitted in the body of a definition, each from the state that what
stands before it has left. -/
inductive Visits (c : Context) (d : Definition) (s : Emission) : Point → Prop
  | field {d' : Struct} {before after : List Field} {f : Field} : d = .struct d' →
    d'.fields = before ++ f :: after →
    Visits c d s ⟨f.type, some (.index (.name subjectName) (.string f.name)),
      (fieldChecks c (.name subjectName) before s).2⟩
  | payload {u : Union} {first rest : List Variant} {v : Variant} {before after : List Field}
    {f : Field} : d = .union u → u.variants = first ++ v :: rest → v.fields = before ++ f :: after →
    Visits c d s ⟨f.type, some (.index (.name payloadKey) (.string f.name)),
      (fieldChecks c (.name payloadKey) before (caseBodies c first s).2).2⟩
  | target {a : Alias} : d = .alias a → Visits c d s ⟨a.target, some (.name subjectName), s⟩
  | argument {name : String} {before after : List TypeRef} {t : TypeRef} {subject : Option Expr}
    {s' : Emission} {inst : Instantiation} :
    Visits c d s ⟨.generic name (before ++ t :: after), subject, s'⟩ →
    c.schema.instantiation? c.scope name (before ++ t :: after) = some inst →
    Visits c d s ⟨t, none, (arguments c before s').2⟩
  | sequence {p : Point} {inner : TypeRef} : Visits c d s p → p.type = .sequence inner →
    Visits c d s ⟨inner, some (.name (freshVariable p.inside.2).1), (freshVariable p.inside.2).2⟩
  | map {p : Point} {inner : TypeRef} : Visits c d s p → p.type = .map inner →
    Visits c d s ⟨inner, some (.name (freshVariable p.inside.2).1), (freshVariable p.inside.2).2⟩
  | element {p : Point} {before after : List TypeRef} {t : TypeRef} : Visits c d s p →
    p.type = .tuple (before ++ t :: after) →
    Visits c d s ⟨t, some (.index p.inside.1 (.number before.length)),
      (tuple c p.inside.1 0 (.both p.inside.1.isArray (.equals (.property p.inside.1 "length")
        (.number (before ++ t :: after).length))) before p.inside.2).2⟩
  | nullable {p : Point} {inner : TypeRef} : Visits c d s p → p.type = .nullable inner →
    Visits c d s ⟨inner, some p.inside.1, p.inside.2⟩

section

variable {c : Context}

theorem reference_generic {name : String} {args : List TypeRef} {inst : Instantiation}
    (hargs : args ≠ []) (hinst : c.schema.instantiation? c.scope name args = some inst)
    (subject : Option Expr) (s : Emission) :
    reference c (.generic name args) subject s =
      let r := arguments c args s
      let r' := instantiate c.options inst r.1 r.2
      (applied subject r'.1, r'.2) := by
  cases args with
  | nil => exact absurd rfl hargs
  | cons t ts =>
    rw [reference, hinst, arguments]
    rfl

section

variable (before : List TypeRef) (t : TypeRef) (after : List TypeRef)

private theorem arguments_kept (s : Emission) :
    (reference c t none (arguments c before s).2).2.Kept True
      (arguments c (before ++ t :: after) s).2 := by
  induction before generalizing s with
  | nil =>
    rw [List.nil_append, arguments, arguments]
    exact (repeats_all c after).keeps _
  | cons u before ih =>
    rw [List.cons_append, arguments, arguments]
    exact ih (reference c u none s).2

private theorem tuple_kept (e : Expr) (i : Nat) (found : Expr) (s : Emission) :
    (reference c t (some (.index e (.number (i + before.length))))
        (tuple c e i found before s).2).2.Kept True
      (tuple c e i found (before ++ t :: after) s).2 := by
  induction before generalizing i found s with
  | nil =>
    rw [List.nil_append, tuple, tuple]
    exact (repeats_tuple c c.scope (fun u _ => repeats_same c u) _ _).keeps _
  | cons u before ih =>
    rw [List.cons_append, tuple, tuple, List.length_cons, ← Nat.succ_add_eq_add_succ]
    exact ih (i + 1) _ _

end

private theorem fieldChecks_kept (e : Expr) (before : List Field) (f : Field) (after : List Field)
    (s : Emission) :
    (reference c f.type (some (.index e (.string f.name))) (fieldChecks c e before s).2).2.Kept True
      (fieldChecks c e (before ++ f :: after) s).2 := by
  induction before generalizing s with
  | nil =>
    rw [List.nil_append, fieldChecks, fieldChecks]
    exact (repeats_fieldChecks c e after).keeps _
  | cons g before ih =>
    rw [List.cons_append, fieldChecks, fieldChecks]
    exact ih _

private theorem caseBodies_kept (first : List Variant) (v : Variant) (rest : List Variant)
    (s : Emission) :
    (objectBody c payloadKey v.fields (caseBodies c first s).2).2.Kept True
      (caseBodies c (first ++ v :: rest) s).2 := by
  induction first generalizing s with
  | nil =>
    rw [List.nil_append, caseBodies, caseBodies]
    exact (repeats_caseBodies c rest).keeps _
  | cons w first ih =>
    rw [List.cons_append, caseBodies, caseBodies]
    exact ih _

theorem freshVariable_kept (s : Emission) : s.Kept True (freshVariable s).2 :=
  (repeats_freshVariable : Repeats True _ _).keeps s

private theorem inside_kept (p : Point) : p.state.Kept True p.inside.2 := by
  obtain ⟨t, subject, s⟩ := p
  cases subject with
  | some e => exact .refl s
  | none => exact freshVariable_kept s

private theorem onSubject_kept {t : TypeRef} {condition : Expr → Emit Expr} {p : Point}
    {s : Emission} (h : s.Kept True (condition p.inside.1 p.inside.2).2) :
    s.Kept True (onSubject t p.subject condition p.state).2 := by
  obtain ⟨_, subject, s'⟩ := p
  cases subject <;> exact h

/-- All that is stored when a reference is emitted is there from then on. -/
theorem Visits.kept {d : Definition} {s : Emission} {p : Point} (h : Visits c d s p) :
    s.Kept True p.state ∧
      (reference c p.type p.subject p.state).2.Kept True (definitionBody c d s).2 := by
  induction h with
  | @field d' before after f hd hfields =>
    subst hd
    refine ⟨(repeats_fieldChecks c _ before).keeps s, ?_⟩
    change Emission.Kept True _ (fieldChecks c (.name subjectName) d'.fields s).2
    rw [hfields]
    exact fieldChecks_kept _ before f after s
  | @payload u first rest v before after f hd hvariants hfields =>
    subst hd
    refine ⟨((repeats_caseBodies c first).keeps s).trans
      ((repeats_fieldChecks c _ before).keeps _), ?_⟩
    have hbody := fieldChecks_kept (c := c) (.name payloadKey) before f after
      (caseBodies c first s).2
    rw [← hfields] at hbody
    change Emission.Kept True _ (caseBodies c u.variants s).2
    rw [hvariants]
    exact hbody.trans (caseBodies_kept first v rest s)
  | target hd =>
    subst hd
    exact ⟨.refl s, .refl _⟩
  -- What is stored for earlier arguments is there when a later one is emitted.
  | @argument name before after t subject s' inst hp hinst ih =>
    obtain ⟨hfrom, hto⟩ := ih
    have hargs : before ++ t :: after ≠ [] := by simp
    rw [reference_generic hargs hinst] at hto
    refine ⟨hfrom.trans ((repeats_all c before).keeps s'), ?_⟩
    have hinstantiate : ¬ True → inst.concrete = true := fun h => absurd trivial h
    exact ((arguments_kept before t after s').trans
      ((repeats_instantiate c.options hinstantiate _).keeps _)).trans hto
  | sequence hp htype ih =>
    obtain ⟨hfrom, hto⟩ := ih
    rw [htype, reference] at hto
    refine ⟨hfrom.trans ((inside_kept _).trans (freshVariable_kept _)), ?_⟩
    exact (onSubject_kept (.refl _)).trans hto
  | map hp htype ih =>
    obtain ⟨hfrom, hto⟩ := ih
    rw [htype, reference] at hto
    refine ⟨hfrom.trans ((inside_kept _).trans (freshVariable_kept _)), ?_⟩
    exact (onSubject_kept (.refl _)).trans hto
  | @element p before after t hp htype ih =>
    obtain ⟨hfrom, hto⟩ := ih
    rw [htype, reference] at hto
    refine ⟨hfrom.trans ((inside_kept p).trans
      ((repeats_tuple c c.scope (fun u _ => repeats_same c u) _ _).keeps _)), ?_⟩
    refine Emission.Kept.trans (onSubject_kept ?_) hto
    have htuple := tuple_kept (c := c) before t after p.inside.1 0
      (.both p.inside.1.isArray (.equals (.property p.inside.1 "length")
        (.number (before ++ t :: after).length))) p.inside.2
    rwa [Nat.zero_add] at htuple
  | nullable hp htype ih =>
    obtain ⟨hfrom, hto⟩ := ih
    rw [htype, reference] at hto
    exact ⟨hfrom.trans (inside_kept _), (onSubject_kept (.refl _)).trans hto⟩

end

end SchemaGuard.Script
