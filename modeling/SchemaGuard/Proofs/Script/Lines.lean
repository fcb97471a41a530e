import SchemaGuard.Proofs.Script.Words

/-!
Which emitted texts stand on one line: those of all expressions, since neither the names and types
that they are written with nor the literals in them have a line feed.
-/

set_option autoImplicit false
set_option relaxedAutoImplicit false

namespace SchemaGuard

open Text (Within)

/-- The text has no line feed. -/
def OneLine (text : String) : Prop := '\n' ∉ text.toList

instance (text : String) : Decidable (OneLine text) :=
  inferInstanceAs (Decidable ('\n' ∉ text.toList))

private theorem oneLine_iff_within {text : String} : OneLine text ↔ Within (· ≠ '\n') text :=
  ⟨fun h _ hc heq => h (heq ▸ hc), fun h hmem => h _ hmem rfl⟩

private theorem holdsInLines_ne_feed : Script.HoldsInLines (· ≠ '\n') := fun _ _ h => h

namespace OneLine

variable {a b : String}

@[simp] private theorem append_iff : OneLine (a ++ b) ↔ OneLine a ∧ OneLine b := by
  simp [OneLine]

theorem of_isUsable (h : Identifier.isUsable a = true) : OneLine a :=
  oneLine_iff_within.mpr (holdsInLines_ne_feed.within_isUsable h)

end OneLine

namespace Script

variable {constants lazies : List Binding} {params : List String}

/-- The names that checkers are made of are on one line, and so are the parameters that the types in
them may mention. -/
structure Context.IsOneLine (c : Context) (constants lazies : List Binding)
    (params : List String) : Prop where
  schema : c.schema.WellFormed
  given : OneLine c.options.guardPrefix
  scope : ∀ p ∈ c.scope.params, OneLine p
  params : ∀ p ∈ params, OneLine p
  bindings : ∀ b ∈ constants ++ lazies, OneLine b.name

private theorem Context.IsOneLine.namesWithin {c : Context}
    (h : c.IsOneLine constants lazies params) :
    c.NamesWithin (· ≠ '\n') constants lazies params where
  inLines := holdsInLines_ne_feed
  schema := h.schema
  given := oneLine_iff_within.mp h.given
  scope p hp := oneLine_iff_within.mp (h.scope p hp)
  params p hp := oneLine_iff_within.mp (h.params p hp)
  bindings b hb := oneLine_iff_within.mp (h.bindings b hb)

private theorem Expr.oneLine {e : Expr} (h : AllWithin (· ≠ '\n') e.words) : OneLine e.text := by
  have hcarries := e.carries holdsInLines_ne_feed h
  have hprinted : ∀ c : Char, 0x20 ≤ c.toNat → c ≠ '\n' := by
    rintro _ hc rfl
    exact absurd hc (by decide)
  exact oneLine_iff_within.mpr (hcarries.forall_of_printed hprinted)

theorem IsSpelled.oneLine {options : Options} {x : String} (h : IsSpelled options x)
    (given : OneLine options.guardPrefix) : OneLine x :=
  oneLine_iff_within.mpr (h.within holdsInLines_ne_feed (oneLine_iff_within.mp given))

theorem IsConstant.oneLine {schema : Schema} {options : Options} {before : List Binding}
    {b : Binding} {params : List String} (h : IsConstant schema options before b)
    (hnames : Context.IsOneLine ⟨schema, options, Scope.empty⟩ before [] params)
    (hb : OneLine b.name) (legal : b.site.IsLegal schema params) :
    OneLine ("const " ++ b.name ++ " = " ++ b.init.text ++ ";") := by
  have hinit : OneLine b.init.text := Expr.oneLine (h.words hnames.namesWithin legal)
  simp +decide only [OneLine.append_iff, hb, hinit]

end Script

end SchemaGuard
