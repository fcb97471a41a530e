import SchemaGuard.Proofs.Script.Emission

/-!
The module that is emitted for a schema: a prelude, one item for each definition, and the constants
with the closed instantiations. Its names differ from each other and from those of the variables of
factories.
-/

set_option autoImplicit false
set_option relaxedAutoImplicit false

namespace SchemaGuard.Script

/-- The item is that of the definition, in a module with the constants; the cells of a factory
are among the names given. -/
inductive IsItem (schema : Schema) (options : Options) (constants : List Binding)
    (cells : List String) : Definition → Item → Prop
  | guard {d : Definition} {exported : Bool} {body : List Stmt} : d.isGeneric = false →
    IsBody ⟨schema, options, Scope.of d⟩ constants [] d body →
    IsItem schema options constants cells d
      (.guard exported (options.guardName d.name) subjectName (.type (.named d.name)) body)
  | factory {d : Definition} {exported : Bool} {lazies : List Binding} {body : List Stmt} :
    d.isGeneric = true → (lazies.map Binding.name).Nodup → lazies.map Binding.name ⊆ cells →
    (∀ b ∈ lazies, b.site.IsLegal schema d.params) →
    IsBody ⟨schema, options, Scope.of d⟩ constants lazies d body →
    IsItem schema options constants cells d
      (.factory exported (options.factoryName d.name) d.name d.params
        (lazies.map fun b => ⟨b.name, b.site⟩) body)

section

variable {schema : Schema} {options : Options} {others : List String} {s : Emission}

/-- A state of emission outside definitions. -/
structure Emission.Between (schema : Schema) (options : Options) (others : List String)
    (s : Emission) : Prop where
  valid : s.Valid ⟨schema, options, Scope.empty⟩ others
  lazies : s.lazies = none

private theorem Emission.Between.enter (h : s.Between schema options others) {d : Definition}
    {lazies : Option (List Binding)} (hempty : lazies.getD [] = [])
    (hparams : lazies = none → d.params = []) :
    ({ s with used := 0, lazies := lazies } : Emission).Valid
      ⟨schema, options, Scope.of d⟩ others := by
  have hnames : ({ s with used := 0, lazies := lazies } : Emission).names = s.names := by
    simp [names, hempty, h.lazies]
  constructor
  · rw [hnames]
    exact h.valid.taken
  · rw [hnames]
    exact h.valid.distinct
  · rw [hnames]
    exact h.valid.unlike
  · rw [hnames]
    exact h.valid.spelled
  · exact hparams
  · exact h.valid.constants
  · exact h.valid.constantSites
  · simp [hempty]

private theorem Emission.Valid.leave {scope : Scope} (h : s.Valid ⟨schema, options, scope⟩ others)
    {lazies : List Binding} (hlazies : s.lazies.getD [] = lazies) :
    ({ s with lazies := none } : Emission).Between schema options
        (others ++ lazies.map Binding.name) ∧
      (lazies.map Binding.name).Nodup ∧
      ∀ x ∈ lazies.map Binding.name, x ∉ others ∧ IsSpelled options x := by
  have hnames : s.names = s.constants.map Binding.name ++ lazies.map Binding.name := by
    rw [names, hlazies, List.map_append]
  have hnone : ({ s with lazies := none } : Emission).names = s.constants.map Binding.name := by
    simp [names]
  have hleft : ∀ {x}, x ∈ s.constants.map Binding.name → x ∈ s.names := fun hx =>
    hnames ▸ List.mem_append_left _ hx
  have hright : ∀ {x}, x ∈ lazies.map Binding.name → x ∈ s.names := fun hx =>
    hnames ▸ List.mem_append_right _ hx
  obtain ⟨hconstants, hcells, hdisjoint⟩ := List.nodup_append.mp (hnames ▸ h.distinct)
  refine ⟨⟨⟨?_, ?_, ?_, ?_, fun _ => rfl, h.constants, h.constantSites, by simp⟩, rfl⟩, hcells,
    fun x hx => ⟨h.unlike x (hright hx), h.spelled x (hright hx)⟩⟩
  · intro x hx
    rw [hnone, List.append_assoc] at hx
    refine h.taken ?_
    rcases List.mem_append.mp hx with hx | hx
    · exact List.mem_append_left _ hx
    · exact List.mem_append_right _ ((List.mem_append.mp hx).elim hright hleft)
  · rw [hnone]
    exact hconstants
  · rw [hnone]
    intro x hx hmem
    rcases List.mem_append.mp hmem with hmem | hmem
    · exact h.unlike x (hleft hx) hmem
    · exact hdisjoint x hx x hmem rfl
  · rw [hnone]
    exact fun x hx => h.spelled x (hleft hx)

theorem definitionItem_guard {d : Definition} (h : d.isGeneric = false) (s : Emission) :
    let body := definitionBody ⟨schema, options, Scope.of d⟩ d { s with used := 0 }
    definitionItem schema options d s = (.guard options.exported (options.guardName d.name)
      subjectName (.type (.named d.name)) body.1, body.2) := by
  simp only [definitionItem, h]
  rfl

/-- The factory of a definition with parameters is emitted with no variables yet, and left with
those that its body has needed. -/
theorem definitionItem_factory {d : Definition} (h : d.isGeneric = true) (s : Emission) :
    let body :=
      definitionBody ⟨schema, options, Scope.of d⟩ d { s with used := 0, lazies := some [] }
    definitionItem schema options d s = (.factory options.exported (options.factoryName d.name)
      d.name d.params ((body.2.lazies.getD []).map fun b => ⟨b.name, b.site⟩) body.1,
      { body.2 with lazies := none }) := by
  simp only [definitionItem, h]
  rfl

private theorem definitionItem_spec (w : schema.WellFormed) {d : Definition} (hd : d ∈ schema.types)
    (hs : s.Between schema options others) :
    let r := definitionItem schema options d s
    ∃ cells, r.2.Between schema options (others ++ cells) ∧
      (∀ x ∈ cells, x ∉ others ∧ IsSpelled options x) ∧
      s.constants ⊆ r.2.constants ∧ ∀ K V, r.2.constants ⊆ K → cells ⊆ V →
        IsItem schema options K V d r.1 := by
  intro r
  let c : Context := ⟨schema, options, Scope.of d⟩
  have legal : ∀ t ∈ d.references, t.IsLegal c.schema c.scope.params := w.references d hd
  cases hgeneric : d.isGeneric with
  | false =>
    let start : Emission := { s with used := 0 }
    have hstart : start.Valid c others := by
      have hnone : ({ s with used := 0, lazies := none } : Emission).Valid c others :=
        hs.enter rfl fun _ => by simpa [Definition.isGeneric] using hgeneric
      rwa [← hs.lazies] at hnone
    obtain ⟨hvalid, hgrows, hbody⟩ :=
      emits_definitionBody w legal start hstart fun _ _ _ => trivial
    have hnone : (definitionBody c d start).2.lazies = none := by
      simpa [start, hs.lazies] using hgrows.factory
    have hr : r = (.guard options.exported (options.guardName d.name) subjectName
        (.type (.named d.name)) (definitionBody c d start).1,
        { (definitionBody c d start).2 with lazies := none }) := by
      rw [← hnone]
      exact definitionItem_guard hgeneric s
    obtain ⟨hbetween, _, _⟩ := hvalid.leave (by rw [hnone, Option.getD_none])
    rw [hr]
    exact ⟨[], hbetween, by simp, hgrows.constants,
      fun K V hK _ => .guard hgeneric (hbody K [] ⟨hK, by simp [hnone]⟩)⟩
  | true =>
    let start : Emission := { s with used := 0, lazies := some [] }
    have hstart : start.Valid c others := hs.enter rfl (by simp)
    obtain ⟨hvalid, hgrows, hbody⟩ :=
      emits_definitionBody w legal start hstart fun _ _ _ => trivial
    obtain ⟨hbetween, hdistinct, hcells⟩ := hvalid.leave rfl
    rw [show r = _ from definitionItem_factory hgeneric s]
    refine ⟨_, hbetween, hcells, hgrows.constants, fun K V hK hV => ?_⟩
    exact .factory hgeneric hdistinct hV hvalid.lazySites (hbody K _ ⟨hK, fun _ h => h⟩)

theorem between_start (schema : Schema) (options : Options) :
    (Emitter.start schema options).emission.Between schema options
      (Emitter.reservedNames schema options) :=
  ⟨⟨by simp [Emitter.start, Emission.names], by simp [Emitter.start, Emission.names],
    by simp [Emitter.start, Emission.names], by simp [Emitter.start, Emission.names],
    fun _ => rfl, by simp [Emitter.start], by simp [Emitter.start], by simp [Emitter.start]⟩, rfl⟩

theorem foldl_emit (w : schema.WellFormed) {ds : List Definition} (hds : ds ⊆ schema.types)
    {e : Emitter} (hschema : e.schema = schema) (hoptions : e.options = options)
    (hs : e.emission.Between schema options others) :
    let e' := ds.foldl Emitter.emit e
    ∃ items cells, e'.blocks.flatMap ItemBlock.items = e.blocks.flatMap ItemBlock.items ++ items ∧
      e'.emission.Between schema options (others ++ cells) ∧
      (∀ x ∈ cells, x ∉ others ∧ IsSpelled options x) ∧
      e.emission.constants ⊆ e'.emission.constants ∧
      ∀ K V, e'.emission.constants ⊆ K → cells ⊆ V →
        List.Forall₂ (IsItem schema options K V) ds items := by
  induction ds generalizing e others with
  | nil => exact ⟨[], [], by simp, by simpa using hs, by simp, fun _ h => h, fun _ _ _ _ => .nil⟩
  | cons d ds ih =>
    obtain ⟨hd, hds⟩ := List.cons_subset.mp hds
    obtain ⟨cells, hbetween, hcells, hgrows, hitem⟩ := definitionItem_spec w hd hs
    let r := (definitionItem schema options d).run e.emission
    let next : Emitter := ⟨schema, options, e.blocks ++ [⟨.type d.name, [r.1]⟩], r.2⟩
    have hnext : e.emit d = next := by
      rw [Emitter.emit, hschema, hoptions]
      rfl
    obtain ⟨items, cells', hblocks, hbetween', hcells', hgrows', hitems⟩ :=
      ih hds rfl rfl (show next.emission.Between schema options _ from hbetween)
    simp only [List.foldl_cons, hnext]
    -- An item stays what it is when constants and cells are added later.
    refine ⟨r.1 :: items, cells ++ cells', ?_, by rw [← List.append_assoc]; exact hbetween', ?_,
      fun _ h => hgrows' (hgrows h), fun K V hK hV => .cons ?_ ?_⟩
    · simp [hblocks, next]
    · intro x hx
      rcases List.mem_append.mp hx with hx | hx
      · exact hcells x hx
      · exact ⟨fun h => (hcells' x hx).1 (List.mem_append_left _ h), (hcells' x hx).2⟩
    · exact hitem K V (fun _ h => hK (hgrows' h)) fun _ h => hV (List.mem_append_left _ h)
    · exact hitems K V hK fun _ h => hV (List.mem_append_right _ h)

end

/-- The guards of a schema as a module. -/
def guardModule (schema : Schema) (options : Options) : Module :=
  (guardBlocks schema options).flatMap ItemBlock.items

/-- What the module of a schema is made of. -/
structure Emitted (schema : Schema) (options : Options) (items : List Item)
    (constants : List Binding) (cells : List String) : Prop where
  items : List.Forall₂ (IsItem schema options constants cells) schema.types items
  inits : ∀ before b after, constants = before ++ b :: after → IsConstant schema options before b
  sites : ∀ b ∈ constants, b.site.IsLegal schema []
  distinct : (constants.map Binding.name).Nodup
  spelled : ∀ x ∈ constants.map Binding.name ++ cells, IsSpelled options x
  unlike : ∀ x ∈ constants.map Binding.name ++ cells,
    x ∉ Emitter.reservedNames schema options
  apart : ∀ x ∈ constants.map Binding.name, x ∉ cells

theorem guardModule_eq (schema : Schema) (w : schema.WellFormed) (options : Options) :
    ∃ items constants cells, Emitted schema options items constants cells ∧
      guardModule schema options
        = prelude options ++ items ++ constants.map fun b => .constant b.name b.init := by
  obtain ⟨items, cells, hblocks, hbetween, hcells, _, hitems⟩ :=
    foldl_emit w (fun _ h => h) (e := Emitter.start schema options) rfl rfl
      (between_start schema options)
  generalize hfinish : schema.types.foldl Emitter.emit (Emitter.start schema options) = e at *
  have hnames : e.emission.names = e.emission.constants.map Binding.name := by
    simp [Emission.names, hbetween.lazies]
  have hvalid := hbetween.valid
  refine ⟨items, e.emission.constants, cells, ⟨hitems _ _ (fun _ h => h) fun _ h => h,
    hvalid.constants, hvalid.constantSites, hnames ▸ hvalid.distinct, ?_, ?_, ?_⟩, ?_⟩
  · intro x hx
    rcases List.mem_append.mp hx with hx | hx
    · exact hvalid.spelled x (hnames ▸ hx)
    · exact (hcells x hx).2
  · intro x hx
    rcases List.mem_append.mp hx with hx | hx
    · exact fun h => hvalid.unlike x (hnames ▸ hx) (List.mem_append_left _ h)
    · exact (hcells x hx).1
  · exact fun x hx h => hvalid.unlike x (hnames ▸ hx) (List.mem_append_right _ h)
  · have hmodule : guardModule schema options = e.finish.flatMap ItemBlock.items := by
      rw [guardModule, guardBlocks, hfinish]
    rw [hmodule, Emitter.finish]
    split
    · next hconstants => simp [hblocks, hconstants, Emitter.start]
    · simp [hblocks, Emitter.start]

end SchemaGuard.Script
