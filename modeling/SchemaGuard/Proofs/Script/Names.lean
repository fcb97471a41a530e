import Mathlib.Data.List.Rotate
import SchemaGuard.Proofs.Script.Emitted

/-!
The names that the module of a schema declares. They differ from each other unless the guard of one
type is named like the factory of another, which needs a guard prefix that overlaps with itself
behind `make_`. They are plain identifiers, and none is reserved unless a reserved word begins with
the guard prefix.
-/

set_option autoImplicit false
set_option relaxedAutoImplicit false

namespace SchemaGuard

namespace Options

variable {o : Options} {a b : String}

private theorem guardName_inj (h : o.guardName a = o.guardName b) : a = b := by
  have hlist := congrArg String.toList h
  simpa [guardName, String.toList_inj] using hlist

private theorem factoryName_inj (h : o.factoryName a = o.factoryName b) : a = b := by
  have hlist := congrArg String.toList h
  simpa [factoryName, String.toList_inj] using hlist

def itemName (o : Options) (d : Definition) : String :=
  if d.isGeneric then o.factoryName d.name else o.guardName d.name

private theorem isRotated_of_append_eq {α : Type} {u : List α} (hu : u ≠ []) {p rest : List α}
    (h : p ++ rest = u ++ p) : rest.IsRotated u := by
  induction hlength : p.length using Nat.strong_induction_on generalizing p with
  | _ n ih =>
    subst hlength
    have hp : p <+: u ++ p := ⟨rest, h⟩
    by_cases hle : p.length ≤ u.length
    · obtain ⟨t, rfl⟩ := List.prefix_of_prefix_length_le hp (List.prefix_append u p) hle
      have hrest : rest = t ++ p := by simpa using h
      rw [hrest]
      exact List.isRotated_append
    · obtain ⟨p', rfl⟩ := List.prefix_of_prefix_length_le (List.prefix_append u p) hp (by omega)
      have hshorter : p'.length < (u ++ p').length := by
        have := List.length_pos_of_ne_nil hu
        rw [List.length_append]
        omega
      exact ih _ hshorter (by simpa using h) rfl

def Overlaps (o : Options) (rest : String) : Prop :=
  o.guardPrefix ++ rest = "make_" ++ o.guardPrefix

private theorem guardName_eq_factoryName_iff :
    o.guardName a = o.factoryName b ↔ ∃ rest, o.Overlaps rest ∧ a = rest ++ b := by
  constructor
  · intro h
    have hlist : o.guardPrefix.toList ++ a.toList
        = ("make_".toList ++ o.guardPrefix.toList) ++ b.toList := by
      simpa [guardName, factoryName, ← String.toList_inj] using h
    have hlength : o.guardPrefix.toList.length
        ≤ ("make_".toList ++ o.guardPrefix.toList).length := by
      rw [List.length_append]
      omega
    -- Both begin the same text, and the shorter one begins the longer one.
    obtain ⟨rest, hrest⟩ := List.prefix_of_prefix_length_le ⟨_, hlist⟩
      (List.prefix_append _ b.toList) hlength
    refine ⟨String.ofList rest, ?_, ?_⟩
    · simpa [Overlaps, ← String.toList_inj] using hrest
    · rw [← hrest, List.append_assoc] at hlist
      simpa [← String.toList_inj] using hlist
  · rintro ⟨rest, h, rfl⟩
    rw [guardName, factoryName, ← String.append_assoc, show o.guardPrefix ++ rest = _ from h]

private theorem exists_overlaps_iff : (∃ rest, o.Overlaps rest) ↔
    o.guardPrefix.toList <+: "make_".toList ++ o.guardPrefix.toList := by
  constructor
  · rintro ⟨rest, h⟩
    exact ⟨rest.toList, by simpa [Overlaps, ← String.toList_inj] using h⟩
  · rintro ⟨rest, h⟩
    exact ⟨String.ofList rest, by simpa [Overlaps, ← String.toList_inj] using h⟩

private theorem Overlaps.isRotated {rest : String} (h : o.Overlaps rest) :
    rest.toList.IsRotated "make_".toList := by
  refine isRotated_of_append_eq (p := o.guardPrefix.toList) (by decide) ?_
  simpa [Overlaps, ← String.toList_inj] using h

private theorem Overlaps.isUsable {rest : String} (h : o.Overlaps rest) :
    Identifier.isUsable (rest ++ "T") = true := by
  have hrotations : ∀ l ∈ "make_".toList.cyclicPermutations,
      Identifier.isUsable (String.ofList l ++ "T") = true := by decide
  have := hrotations _ (List.mem_cyclicPermutations_iff.mpr h.isRotated)
  rwa [String.ofList_toList] at this

end Options

namespace Script

variable {schema : Schema} {options : Options} {items : List Item} {constants : List Binding}
  {cells : List String}

def preludeTypes : List String := "record" :: Primitive.all.map Primitive.name

theorem names_prelude (options : Options) :
    (prelude options).map Item.name = preludeTypes.map options.guardName := rfl

private theorem isUsable_preludeTypes :
    ∀ type ∈ preludeTypes, Identifier.isUsable type = false := by
  decide

theorem isPlain_preludeTypes : ∀ type ∈ preludeTypes, Identifier.isPlain type = true := by
  decide

theorem exists_left {α β : Type} {R : α → β → Prop} {xs : List α} {ys : List β}
    (h : List.Forall₂ R xs ys) {x : α} (hx : x ∈ xs) : ∃ y ∈ ys, R x y := by
  induction h with
  | nil => cases hx
  | cons hxy _ ih =>
    rcases List.mem_cons.mp hx with rfl | hx
    · exact ⟨_, List.mem_cons_self, hxy⟩
    · obtain ⟨y, hy, hxy⟩ := ih hx
      exact ⟨y, List.mem_cons_of_mem _ hy, hxy⟩

private theorem IsItem.name_eq {d : Definition} {item : Item}
    (h : IsItem schema options constants cells d item) : item.name = options.itemName d := by
  cases h with
  | guard hgeneric _ => simp [Item.name, Options.itemName, hgeneric]
  | factory hgeneric _ _ _ _ => simp [Item.name, Options.itemName, hgeneric]

namespace Emitted

theorem names_items (h : Emitted schema options items constants cells) :
    items.map Item.name = schema.types.map options.itemName := by
  have hnames : List.Forall₂ (fun d item => options.itemName d = Item.name item)
      schema.types items := h.items.imp fun d item hitem => hitem.name_eq.symm
  have heq := List.forall₂_map_left_iff.mpr (List.forall₂_map_right_iff.mpr hnames)
  rw [List.forall₂_eq_eq_eq] at heq
  exact heq.symm

theorem names_reserved (h : Emitted schema options items constants cells) {x : String}
    (hx : x ∈ (prelude options ++ items).map Item.name) :
    x ∈ Emitter.reservedNames schema options := by
  rw [List.map_append, names_prelude, h.names_items] at hx
  rcases List.mem_append.mp hx with hx | hx
  · exact List.mem_append_right _ hx
  · obtain ⟨d, hd, rfl⟩ := List.mem_map.mp hx
    refine List.mem_append_left _ (List.mem_flatMap.mpr ⟨d, hd, ?_⟩)
    rw [Options.itemName]
    split <;> simp

private theorem itemName_inj {d d' : Definition}
    (happart : d.isGeneric = false → d'.isGeneric = true →
      options.guardName d.name ≠ options.factoryName d'.name)
    (happart' : d'.isGeneric = false → d.isGeneric = true →
      options.guardName d'.name ≠ options.factoryName d.name)
    (h : options.itemName d = options.itemName d') : d.name = d'.name := by
  unfold Options.itemName at h
  split at h <;> split at h
  · exact Options.factoryName_inj h
  · next hd hd' => exact absurd h.symm (happart' (Bool.eq_false_iff.mpr hd') hd)
  · next hd hd' => exact absurd h (happart (Bool.eq_false_iff.mpr hd) hd')
  · exact Options.guardName_inj h

private theorem guardName_ne_itemName (w : schema.WellFormed) {type : String}
    (htype : type ∈ preludeTypes) {d : Definition} (hd : d ∈ schema.types) :
    options.guardName type ≠ options.itemName d := by
  intro heq
  unfold Options.itemName at heq
  split at heq
  · -- The overlap of the prefix with itself would have the underscore of `make_`.
    obtain ⟨rest, hrest, rfl⟩ := Options.guardName_eq_factoryName_iff.mp heq
    have hunderscore : '_' ∈ rest.toList := hrest.isRotated.mem_iff.mpr (by decide)
    have hnone : ∀ type ∈ preludeTypes, '_' ∉ type.toList := by decide
    refine hnone _ htype ?_
    rw [String.toList_append]
    exact List.mem_append_left _ hunderscore
  · obtain rfl := Options.guardName_inj heq
    have husable := w.typeNames d hd
    rw [isUsable_preludeTypes _ htype] at husable
    cases husable

private theorem names_functions_nodup_iff (w : schema.WellFormed)
    (h : Emitted schema options items constants cells) :
    ((prelude options ++ items).map Item.name).Nodup ↔
      ∀ d ∈ schema.types, ∀ d' ∈ schema.types, d.isGeneric = false → d'.isGeneric = true →
        options.guardName d.name ≠ options.factoryName d'.name := by
  rw [List.map_append, names_prelude, h.names_items, List.nodup_append]
  constructor
  · rintro ⟨_, hitems, _⟩ d hd d' hd' hmonomorphic hgeneric heq
    have hsame : d = d' := List.inj_on_of_nodup_map hitems hd hd'
      (by simpa [Options.itemName, hmonomorphic, hgeneric] using heq)
    rw [hsame, hgeneric] at hmonomorphic
    cases hmonomorphic
  · intro happart
    refine ⟨List.Nodup.map (fun _ _ => Options.guardName_inj) (by decide), ?_, ?_⟩
    · refine List.pairwise_map.mpr ((List.pairwise_map.mp w.types_nodup).imp_of_mem ?_)
      intro d d' hd hd' hne heq
      exact hne (itemName_inj (happart d hd d' hd') (happart d' hd' d hd) heq)
    · intro x hx y hy heq
      obtain ⟨type, htype, rfl⟩ := List.mem_map.mp hx
      obtain ⟨d, hd, rfl⟩ := List.mem_map.mp hy
      exact guardName_ne_itemName w htype hd heq

theorem names_nodup_iff (w : schema.WellFormed)
    (h : Emitted schema options items constants cells) :
    ((prelude options ++ items ++ constants.map fun b => Item.constant b.name b.init).map
        Item.name).Nodup ↔
      ∀ d ∈ schema.types, ∀ d' ∈ schema.types, d.isGeneric = false → d'.isGeneric = true →
        options.guardName d.name ≠ options.factoryName d'.name := by
  have hconstants : (constants.map fun b => Item.constant b.name b.init).map Item.name
      = constants.map Binding.name := by
    rw [List.map_map]
    rfl
  rw [List.map_append, hconstants, ← names_functions_nodup_iff w h, List.nodup_append]
  refine ⟨And.left, fun hfunctions => ⟨hfunctions, h.distinct, ?_⟩⟩
  rintro x hx _ hy rfl
  exact h.unlike x (List.mem_append_left _ hy) (h.names_reserved hx)

end Emitted

private theorem guardModule_nodup_iff (r : ResolvedSchema) (options : Options) :
    ((guardModule r.schema options).map Item.name).Nodup ↔
      ∀ d ∈ r.types, ∀ d' ∈ r.types, d.isGeneric = false → d'.isGeneric = true →
        options.guardName d.name ≠ options.factoryName d'.name := by
  obtain ⟨items, constants, cells, hemitted, hmodule⟩ :=
    guardModule_eq r.schema r.wellFormed options
  rw [hmodule]
  exact hemitted.names_nodup_iff r.wellFormed

/-- A type of the given name without parameters, and one named `T` with a parameter. -/
private def beside (name : String) : Schema :=
  ⟨[.enum ⟨name, []⟩, .alias ⟨"T", ["U"], .parameter "U"⟩]⟩

private theorem beside_errors {name : String} (husable : Identifier.isUsable name = true)
    (hne : name ≠ "T") : (beside name).errors = [] := by
  have hT : Identifier.isUsable "T" = true := by decide
  have hU : Identifier.isUsable "U" = true := by decide
  have hcycle : (beside name).isCyclic ⟨"T", ["U"], .parameter "U"⟩ = false := rfl
  rw [beside] at hcycle
  simp [Schema.errors, beside, Schema.nameErrors, Schema.bodyErrors, Schema.memberErrors,
    Schema.paramErrors, Schema.referenceErrors, Schema.cycleErrors, Definition.name, husable, hT,
    hU, hne.symm, hcycle]

/-- The names of a module differ from each other unless the guard of a type without parameters is
named like the factory of a type with parameters. Some schema has two such types just when the guard
prefix is also what `make_` and the prefix together begin with. -/
theorem guardModule_names_nodup (options : Options) :
    (∀ r : ResolvedSchema, ((guardModule r.schema options).map Item.name).Nodup ↔
      ∀ d ∈ r.types, ∀ d' ∈ r.types, d.isGeneric = false → d'.isGeneric = true →
        options.guardName d.name ≠ options.factoryName d'.name) ∧
    ((∀ r : ResolvedSchema, ((guardModule r.schema options).map Item.name).Nodup) ↔
      ¬ options.guardPrefix.toList <+: "make_".toList ++ options.guardPrefix.toList) := by
  refine ⟨fun r => guardModule_nodup_iff r options, ?_⟩
  rw [← Options.exists_overlaps_iff]
  constructor
  · rintro h ⟨rest, hrest⟩
    have hne : rest ++ "T" ≠ "T" := by
      intro heq
      have hempty : rest.toList = [] := by simpa using congrArg String.toList heq
      have hlength := hrest.isRotated.perm.length_eq
      rw [hempty] at hlength
      cases hlength
    let r : ResolvedSchema := ⟨beside (rest ++ "T"), beside_errors hrest.isUsable hne⟩
    refine (guardModule_nodup_iff r options).mp (h r) (.enum ⟨rest ++ "T", []⟩) ?_
      (.alias ⟨"T", ["U"], .parameter "U"⟩) ?_ rfl rfl ?_
    · exact List.mem_cons_self
    · exact List.mem_cons_of_mem _ List.mem_cons_self
    · exact Options.guardName_eq_factoryName_iff.mpr ⟨rest, hrest, rfl⟩
  · intro h r
    refine (guardModule_nodup_iff r options).mpr fun d _ d' _ _ _ heq => ?_
    obtain ⟨rest, hrest, _⟩ := Options.guardName_eq_factoryName_iff.mp heq
    exact h ⟨rest, hrest⟩

/-- A type named so that its guard is named like the factory of the type beside it. -/
def boxes : ResolvedSchema :=
  ⟨⟨[.enum ⟨"ake_mBox", ["a"]⟩, .alias ⟨"Box", ["T"], .parameter "T"⟩]⟩, by decide⟩

theorem guardModule_names_repeated :
    ({ guardPrefix := "m" } : Options).validate = .ok () ∧
      (guardModule boxes.schema { guardPrefix := "m" }).map Item.name =
        ["mrecord", "mboolean", "mnumber", "mstring", "mbytes", "make_mBox", "make_mBox"] ∧
      ¬ ((guardModule boxes.schema { guardPrefix := "m" }).map Item.name).Nodup := by
  have hnames : (guardModule boxes.schema { guardPrefix := "m" }).map Item.name =
      ["mrecord", "mboolean", "mnumber", "mstring", "mbytes", "make_mBox", "make_mBox"] := by decide
  exact ⟨rfl, hnames, hnames ▸ by decide⟩

/-- The variables that a factory fills at their first use. -/
def Item.lazyNames : Item → List String
  | .factory _ _ _ _ lazies _ => lazies.map Lazy.name
  | .guard .. | .constant .. => []

/-- The names that a module declares for guards and factories, those inside factories included. -/
def Module.declared (m : Module) : List String := m.flatMap fun item => item.name :: item.lazyNames

theorem Module.mem_declared_of_mem {m : Module} {x : String} (h : x ∈ m.map Item.name) :
    x ∈ Module.declared m := by
  obtain ⟨item, hitem, rfl⟩ := List.mem_map.mp h
  exact List.mem_flatMap.mpr ⟨item, hitem, List.mem_cons_self⟩

private theorem IsItem.lazyNames_subset {d : Definition} {item : Item}
    (h : IsItem schema options constants cells d item) : item.lazyNames ⊆ cells := by
  cases h with
  | guard => exact List.nil_subset _
  | factory _ _ hcells _ _ =>
    simpa [Item.lazyNames, List.map_map, Function.comp_def] using hcells

private theorem itemName_mem_declared {r : ResolvedSchema} {d : Definition} (hd : d ∈ r.types) :
    options.itemName d ∈ Module.declared (guardModule r.schema options) := by
  obtain ⟨items, constants, cells, hemitted, hmodule⟩ :=
    guardModule_eq r.schema r.wellFormed options
  refine Module.mem_declared_of_mem ?_
  rw [hmodule, List.map_append, List.map_append, hemitted.names_items]
  exact List.mem_append_left _ (List.mem_append_right _ (List.mem_map_of_mem hd))

private theorem lazyNames_prelude {item : Item} (h : item ∈ prelude options) :
    item.lazyNames = [] := by
  simp only [prelude, List.mem_cons, List.not_mem_nil, or_false] at h
  rcases h with rfl | rfl | rfl | rfl | rfl <;> rfl

private theorem Emitted.lazyNames_subset (h : Emitted schema options items constants cells)
    {item : Item}
    (hitem : item ∈ prelude options ++ items ++ constants.map fun b => .constant b.name b.init) :
    item.lazyNames ⊆ cells := by
  rcases List.mem_append.mp hitem with hitem | hitem
  · rcases List.mem_append.mp hitem with hitem | hitem
    · rw [lazyNames_prelude hitem]
      exact List.nil_subset _
    · obtain ⟨d, _, hd⟩ := exists_left h.items.flip hitem
      exact hd.lazyNames_subset
  · obtain ⟨b, _, rfl⟩ := List.mem_map.mp hitem
    exact List.nil_subset _

theorem lazyNames_notMem_names {r : ResolvedSchema} {item : Item}
    (hitem : item ∈ guardModule r.schema options) {x : String} (hx : x ∈ item.lazyNames) :
    x ∉ (guardModule r.schema options).map Item.name := by
  obtain ⟨items, constants, cells, hemitted, hmodule⟩ :=
    guardModule_eq r.schema r.wellFormed options
  rw [hmodule] at hitem ⊢
  have hcell := hemitted.lazyNames_subset hitem hx
  rw [List.map_append]
  intro hmem
  rcases List.mem_append.mp hmem with hmem | hmem
  · exact hemitted.unlike x (List.mem_append_right _ hcell) (hemitted.names_reserved hmem)
  · rw [List.map_map] at hmem
    exact hemitted.apart x hmem hcell

/-- A declared name is that of a factory, or the guard prefix with nothing or with an identifier
behind it. -/
theorem isSpelled_of_mem_declared {r : ResolvedSchema} {x : String}
    (hx : x ∈ Module.declared (guardModule r.schema options)) :
    (∃ d ∈ r.types, x = options.factoryName d.name) ∨ IsSpelled options x := by
  obtain ⟨items, constants, cells, hemitted, hmodule⟩ :=
    guardModule_eq r.schema r.wellFormed options
  rw [hmodule] at hx
  obtain ⟨item, hitem, hx⟩ := List.mem_flatMap.mp hx
  rcases List.mem_cons.mp hx with rfl | hx
  · have hname := List.mem_map_of_mem (f := Item.name) hitem
    rw [List.map_append, List.map_append, names_prelude, hemitted.names_items,
      List.map_map] at hname
    rcases List.mem_append.mp hname with hname | hname
    · rcases List.mem_append.mp hname with hname | hname
      · obtain ⟨type, htype, hname⟩ := List.mem_map.mp hname
        exact .inr ⟨type, .inr (isPlain_preludeTypes type htype), hname.symm⟩
      · obtain ⟨d, hd, hname⟩ := List.mem_map.mp hname
        rw [← hname, Options.itemName]
        split
        · exact .inl ⟨d, hd, rfl⟩
        · exact .inr
            ⟨d.name, .inr (Identifier.isPlain_of_isUsable (r.wellFormed.typeNames d hd)), rfl⟩
    · exact .inr (hemitted.spelled _ (List.mem_append_left _ hname))
  · have hcell := hemitted.lazyNames_subset hitem hx
    exact .inr (hemitted.spelled x (List.mem_append_right _ hcell))

private theorem isPlain_factoryName {o : Options} {type : String}
    (hgiven : Identifier.isPlain o.guardPrefix = true) (htype : Identifier.isPlain type = true) :
    Identifier.isPlain (o.factoryName type) = true :=
  Identifier.isPlain_append (Identifier.isPlain_append (by decide)
    (Identifier.isPart_of_isPlain hgiven)) (Identifier.isPart_of_isPlain htype)

private theorem isAlpha_of_mem_reserved {word : String} (hword : word ∈ Identifier.reserved) :
    ∀ c ∈ word.toList, c.isAlpha = true := by
  have hall : (Identifier.reserved.all fun word => word.toList.all Char.isAlpha) = true := by
    decide
  exact List.all_eq_true.mp (List.all_eq_true.mp hall word hword)

private theorem eq_of_isSuffixOf_reserved {v w : String} (hv : v ∈ Identifier.reserved)
    (hw : w ∈ Identifier.reserved) (h : v.toList.isSuffixOf w.toList = true) : v = w := by
  have hall : (Identifier.reserved.all fun v => Identifier.reserved.all fun w =>
      !v.toList.isSuffixOf w.toList || v == w) = true := by
    decide
  have hpair := List.all_eq_true.mp (List.all_eq_true.mp hall v hv) w hw
  simpa [h] using hpair

private theorem factoryName_notMem_reserved (o : Options) (type : String) :
    o.factoryName type ∉ Identifier.reserved := by
  intro hmem
  have hunderscore : '_' ∈ (o.factoryName type).toList := by simp [Options.factoryName]
  have hletter := isAlpha_of_mem_reserved hmem '_' hunderscore
  cases hletter

private theorem isUsable_of_suffix {word : String} (hword : word ∈ Identifier.reserved)
    {rest : List Char} (hrest : rest <:+ word.toList) (hsome : rest ≠ [])
    (hless : rest ≠ word.toList) : Identifier.isUsable (String.ofList rest) = true := by
  have hletters : ∀ c ∈ rest, Identifier.isStart c = true := by
    intro c hc
    rw [Identifier.isStart, isAlpha_of_mem_reserved hword c (hrest.mem hc), Bool.true_or,
      Bool.true_or]
  refine Identifier.isUsable_iff.mpr ⟨?_, fun hmem => ?_⟩
  · obtain ⟨c, more, rfl⟩ := List.exists_cons_of_ne_nil hsome
    exact Identifier.isPlain_iff.mpr ⟨c, more, String.toList_ofList, hletters c List.mem_cons_self,
      fun d hd => Identifier.isPart_of_isStart (hletters d (List.mem_cons_of_mem c hd))⟩
  · have hends : (String.ofList rest).toList.isSuffixOf word.toList = true := by
      rw [String.toList_ofList]
      exact List.isSuffixOf_iff_suffix.mpr hrest
    have hsame := eq_of_isSuffixOf_reserved hmem hword hends
    exact hless (by rw [← hsame, String.toList_ofList])

private theorem single_errors {name : String} (husable : Identifier.isUsable name = true) :
    (⟨[.enum ⟨name, []⟩]⟩ : Schema).errors = [] := by
  simp [Schema.errors, Schema.nameErrors, Schema.bodyErrors, Schema.memberErrors,
    Schema.cycleErrors, Definition.name, husable]

/-- Every name that a module declares is a plain identifier. All of them are usable in every schema
just when no reserved word begins with the guard prefix. -/
theorem guardModule_names_usable (options : Options) (hvalid : options.validate = .ok ()) :
    (∀ r : ResolvedSchema, ∀ x ∈ Module.declared (guardModule r.schema options),
      Identifier.isPlain x = true) ∧
    ((∀ r : ResolvedSchema, ∀ x ∈ Module.declared (guardModule r.schema options),
        Identifier.isUsable x = true) ↔
      ∀ word ∈ Identifier.reserved, ¬ options.guardPrefix.toList <+: word.toList) := by
  have hgiven := Options.isUsable_of_validate hvalid
  have hplain := Identifier.isPlain_of_isUsable hgiven
  have plain : ∀ r : ResolvedSchema, ∀ x ∈ Module.declared (guardModule r.schema options),
      Identifier.isPlain x = true := by
    intro r x hx
    rcases isSpelled_of_mem_declared hx with ⟨d, hd, rfl⟩ | ⟨text, htext, rfl⟩
    · have husable := r.wellFormed.typeNames d hd
      exact isPlain_factoryName hplain (Identifier.isPlain_of_isUsable husable)
    · exact Identifier.isPlain_append hplain htext.isPart
  refine ⟨plain, fun h word hword ⟨rest, hrest⟩ => ?_, fun h r x hx => ?_⟩
  · have hsome : rest ≠ [] := by
      rintro rfl
      rw [List.append_nil, String.toList_inj] at hrest
      exact (Identifier.isUsable_iff.mp hgiven).2 (hrest ▸ hword)
    have hless : rest ≠ word.toList := by
      intro heq
      obtain ⟨c, more, hlist, _⟩ := Identifier.isPlain_iff.mp hplain
      rw [heq, List.append_left_eq_self, hlist] at hrest
      cases hrest
    -- A type named by the rest of the word has a guard named by the word.
    let r : ResolvedSchema :=
      ⟨⟨[.enum ⟨String.ofList rest, []⟩]⟩,
        single_errors (isUsable_of_suffix hword ⟨_, hrest⟩ hsome hless)⟩
    have hname : options.itemName (.enum ⟨String.ofList rest, []⟩) = word := by
      simpa [Options.itemName, Options.guardName, Definition.isGeneric, Definition.params,
        Definition.name, ← String.toList_inj] using hrest
    have husable := h r word (hname ▸ itemName_mem_declared (r := r) List.mem_cons_self)
    exact (Identifier.isUsable_iff.mp husable).2 hword
  · refine Identifier.isUsable_iff.mpr ⟨plain r x hx, fun hreserved => ?_⟩
    rcases isSpelled_of_mem_declared hx with ⟨d, _, rfl⟩ | ⟨text, _, rfl⟩
    · exact factoryName_notMem_reserved options d.name hreserved
    · exact h _ hreserved (options.prefix_guardName text)

theorem guardModule_names_usable_isa :
    ({} : Options).validate = .ok () ∧
      ∀ r : ResolvedSchema, ∀ x ∈ Module.declared (guardModule r.schema {}),
        Identifier.isUsable x = true :=
  ⟨rfl, (guardModule_names_usable {} rfl).2.mpr (by decide)⟩

/-- A type named so that its guard is named by a reserved word. -/
def flag : ResolvedSchema := ⟨⟨[.enum ⟨"f", ["on", "off"]⟩]⟩, by decide⟩

theorem guardModule_names_not_usable :
    ({ guardPrefix := "i" } : Options).validate = .ok () ∧
      "if" ∈ Module.declared (guardModule flag.schema { guardPrefix := "i" }) ∧
      Identifier.isUsable "if" = false :=
  ⟨rfl, by decide, by decide⟩

end Script

end SchemaGuard
